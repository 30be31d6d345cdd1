import Kave.LexPrefix
import Kave.CatchUp
import Kave.Hub
import Kave.OwnReads

/-! Prefix requests: the range that stands for a prefix, in reads of the service, in reads of a transaction and in
    watchers. A range without an end is a single key, and not every prefix has an end. -/

namespace Kave

open TreeIndex

/-! ### The end of a prefix -/

/-- No key stands behind all that start with `p`: it has only the largest byte. The empty prefix is told apart. -/
def Endless (p : Bytes) : Prop := p ≠ [] ∧ ∀ b ∈ p, b = 0xFF

instance (p : Bytes) : Decidable (Endless p) := inferInstanceAs (Decidable (_ ∧ _))

def startsWith (p k : Bytes) : Bool := p.isPrefixOf k

theorem startsWith_iff {p k : Bytes} : startsWith p k = true ↔ p <+: k := List.isPrefixOf_iff_prefix

theorem byte_le_top (b : UInt8) : b ≤ 0xFF := UInt8.le_iff_toNat_le.mpr (Nat.le_of_lt_succ b.toNat_lt)

theorem byte_covBy {b : UInt8} (less : b < 0xFF) : b ⋖ b + 1 := by
  have bound : b.toNat < 255 := UInt8.lt_iff_toNat_lt.mp less
  have next : (b + 1).toNat = b.toNat + 1 := by
    rw [UInt8.toNat_add]
    exact Nat.mod_eq_of_lt (by change b.toNat + 1 < 256; omega)
  refine ⟨UInt8.lt_iff_toNat_lt.mpr (by omega),fun c above below => ?_⟩
  rw [UInt8.lt_iff_toNat_lt] at above below
  omega

theorem prefixEndLoop_none {l : Bytes} : prefixEndLoop l = none ↔ ∀ b ∈ l, b = 0xFF := by
  induction l with
  | nil => simp [prefixEndLoop]
  | cons b rest ih =>
    rw [prefixEndLoop,List.forall_mem_cons,← ih]
    split
    next less => simp [less.ne]
    next notLess => simp [le_antisymm (byte_le_top b) (not_lt.mp notLess)]

theorem prefixEndLoop_some {l stop : Bytes} (found : prefixEndLoop l = some stop) :
    ∃ tops b rest, l = tops ++ b :: rest ∧ (∀ t ∈ tops, t = 0xFF) ∧ b < 0xFF ∧ stop = ((b + 1) :: rest).reverse := by
  induction l with
  | nil => cases found
  | cons b rest ih =>
    rw [prefixEndLoop] at found
    split at found
    next less =>
      cases found
      exact ⟨[],b,rest,rfl,by simp,less,rfl⟩
    next notLess =>
      obtain ⟨tops,b',rest',rfl,all,less,same⟩ := ih found
      exact ⟨b :: tops,b',rest',rfl,List.forall_mem_cons.mpr ⟨le_antisymm (byte_le_top b) (not_lt.mp notLess),all⟩,less,same⟩

theorem prefixEnd_none {p : Bytes} : prefixEnd p = none ↔ ∀ b ∈ p, b = 0xFF := by simp [prefixEnd,prefixEndLoop_none]

theorem prefixEnd_some {p stop : Bytes} (found : prefixEnd p = some stop) (k : Bytes) : p <+: k ↔ p ≤ k ∧ k < stop := by
  obtain ⟨tops,b,rest,split,all,less,rfl⟩ := prefixEndLoop_some found
  have whole : p = rest.reverse ++ b :: tops.reverse := by
    rw [← List.reverse_reverse p,split]
    simp
  rw [whole,List.reverse_cons]
  exact LexPrefix.isPrefix_iff_mem_Ico (byte_covBy less) (fun t inside x => all t (List.mem_reverse.mp inside) ▸ byte_le_top x) k

/-- The keys with a prefix are the ones from it up to its end, or to the end of all keys if it has none, which is so exactly
    for a prefix without a byte that can be raised. -/
theorem prefixEnd_bounds_prefix_exactly (p : Bytes) :
    (∀ k, p <+: k ↔ p ≤ k ∧ (prefixEnd p = none ∨ ∃ stop, prefixEnd p = some stop ∧ k < stop)) ∧
      (prefixEnd p = none ↔ ∀ b ∈ p, b = 0xFF) := by
  refine ⟨fun k => ?_,prefixEnd_none⟩
  cases found : prefixEnd p with
  | none =>
    have top : ∀ t ∈ p, ∀ x, x ≤ t := fun t inside x => prefixEnd_none.mp found t inside ▸ byte_le_top x
    simpa using LexPrefix.isPrefix_iff_le top k
  | some stop => simpa using prefixEnd_some found k

theorem prefixEnd_ne_nil {p stop : Bytes} (found : prefixEnd p = some stop) : stop ≠ [] := by
  obtain ⟨tops,b,rest,-,-,-,rfl⟩ := prefixEndLoop_some found
  simp

theorem selects_prefixEnd (p k : Bytes) : selects p (prefixEnd p) k = true ↔ p <+: k ∧ (Endless p → k = p) := by
  cases found : prefixEnd p with
  | none =>
    have top := prefixEnd_none.mp found
    by_cases empty : p = []
    · simp [selects,visits,empty,Endless,nil_le_bytes]
    · have endless : Endless p := ⟨empty,top⟩
      simp only [selects,empty,ne_eq,not_false_eq_true,and_self,if_true,decide_eq_true_eq,endless,forall_const]
      exact ⟨fun same => ⟨same ▸ List.prefix_rfl,same⟩,fun both => both.2⟩
  | some stop =>
    have ends : ¬ Endless p := fun endless => by simp [prefixEnd_none.mpr endless.2] at found
    simp [selects,visits,prefixEnd_ne_nil found,ends,prefixEnd_some found]

theorem Watcher.covers_prefixEnd {w : Watcher} (stop : w.keyEnd = prefixEnd w.keyStart) (key : Bytes) :
    w.covers key = true ↔ w.keyStart <+: key ∧ (Endless w.keyStart → key = w.keyStart) := by
  have ranged : w.Ranged := Or.inl fun empty => prefixEnd_ne_nil (stop.symm.trans empty) rfl
  rw [ranged.covers_eq,stop,selects_prefixEnd]

/-! ### Reads -/

private theorem filtered_records_iff {α β : Type} (l : List α) (p q : α → Bool) (record : α → Option β)
    (part : ∀ x, p x = true → q x = true) :
    (((l.filter p).map record).filterMap id).map some = (l.filter q).map record ↔
      ∀ x ∈ l, q x = true → p x = true ∧ (record x).isSome := by
  constructor
  · intro same x inside wanted
    have sub : (l.filter p).Sublist (l.filter q) := List.monotone_filter_right l part
    have lengths := congrArg List.length same
    rw [List.length_map,List.length_map] at lengths
    have bound := List.length_filterMap_le id ((l.filter p).map record)
    rw [List.length_map] at bound
    have lists := sub.eq_of_length_le (by omega)
    have member : x ∈ l.filter q := List.mem_filter.mpr ⟨inside,wanted⟩
    have kept : record x ∈ (((l.filter p).map record).filterMap id).map some := same ▸ List.mem_map_of_mem member
    obtain ⟨entry,-,found⟩ := List.mem_map.mp kept
    exact ⟨(List.mem_filter.mp (lists ▸ member)).2,by rw [← found]; rfl⟩
  · intro all
    have lists : l.filter p = l.filter q :=
      List.filter_congr fun x inside => Bool.eq_iff_iff.mpr ⟨part x,fun wanted => (all x inside wanted).1⟩
    rw [lists,List.filterMap_map,List.map_filterMap]
    conv_rhs => rw [← List.filterMap_some (l := (l.filter q).map record),List.filterMap_map]
    refine List.filterMap_congr fun x member => ?_
    obtain ⟨inside,wanted⟩ := List.mem_filter.mp member
    obtain ⟨entry,found⟩ := Option.isSome_iff_exists.mp (all x inside wanted).2
    simp [found]

/-- The request can be answered with exactly the live keys that start with `p`: every such key is selected, and its
    record is in the bucket that is read. -/
def Answerable (ti : TreeIndex) (kv : KvBucket) (r : Int) (p : Bytes) : Prop :=
  ∀ k found, ti.look k r = some found → p <+: k → (Endless p → k = p) ∧ (kv.find? ⟨found.2.1,false⟩).isSome

theorem answerable_iff {ti : TreeIndex} {kv : KvBucket} {r : Int} {p : Bytes} :
    Answerable ti kv r p ↔ ∀ e ∈ (ti.live r).entries, startsWith p e.1 = true →
      (Endless p → e.1 = p) ∧ (kv.find? ⟨e.2.2.1,false⟩).isSome := by
  have live : ∀ e, e ∈ (ti.live r).entries ↔ ti.look e.1 r = some e.2 := fun e => by rw [← find_live,← SortedMap.mem_entries]
  simp only [Answerable,live,startsWith_iff,Prod.forall]

instance (ti : TreeIndex) (kv : KvBucket) (r : Int) (p : Bytes) : Decidable (Answerable ti kv r p) :=
  decidable_of_iff _ answerable_iff.symm

theorem doRange_prefix_iff {ti : TreeIndex} {b : Buckets} {curr compacted rev : Int} {p : Bytes} {got : RangeResult}
    (read : doRange ti b curr compacted rev p (prefixEnd p) 0 = .ok got) :
    got.entries.map some = recordsAt ti b.kv (askedRev curr rev) (startsWith p) ↔
      Answerable ti b.kv (askedRev curr rev) p := by
  have plain : ¬ (p = [0] ∧ prefixEnd p = some [0]) := by
    rintro ⟨rfl,stop⟩
    simp [prefixEnd,prefixEndLoop] at stop
  have fetched : got = fetchRange ti b (askedRev curr rev) p (prefixEnd p) 0 := by
    simp only [doRange,plain,if_false] at read
    change (if rev > curr then _ else if askedRev curr rev < compacted then _ else
      Except.ok (fetchRange ti b (askedRev curr rev) _ _ 0)) = _ at read
    split at read
    · cases read
    · split at read
      · cases read
      · exact (Except.ok.inj read).symm
  rw [fetched,fetchRange_eq]
  change (((recordsAt ti b.kv _ _)).filterMap id).map some = _ ↔ _
  rw [recordsAt,recordsAt,answerable_iff]
  refine (filtered_records_iff (ti.live (askedRev curr rev)).entries (fun e => selects p (prefixEnd p) e.1)
    (fun e => startsWith p e.1) (fun e => b.kv.find? ⟨e.2.2.1,false⟩) fun e selected => ?_).trans ?_
  · exact startsWith_iff.mpr ((selects_prefixEnd p e.1).mp selected).1
  · refine forall₂_congr fun e _ => imp_congr_right fun starts => and_congr_left fun _ => ?_
    rw [selects_prefixEnd,and_iff_right (startsWith_iff.mp starts)]

/-! ### The requests -/

/-- The header of a response; what it says is read after the entries. -/
structure ResponseHeader where
  revision : Int
  compactedRev : Int
  raftTerm : Nat
  raftIndex : Nat
  nodeID : String
deriving DecidableEq, Repr

structure RangeResponse where
  header : ResponseHeader
  entries : List Entry
  count : Nat
deriving DecidableEq, Repr

inductive RangeError
  /-- `range failed: malformed request: …` -/
  | malformed (cause : RequestError)
  /-- `range failed: failed to verify leader: …` -/
  | verifyLeader
  /-- `range failed: …` -/
  | read (cause : KvError)
deriving DecidableEq, Repr

/-- A request to the service; the two flags are of no interest to a transaction. -/
structure RangeCall where
  request : RangeRequest
  serializable : Bool
  countOnly : Bool
deriving DecidableEq, Repr

/-- `Range` of the service; `leader` is the outcome of `VerifyLeader`. -/
def KvStore.serveRange (s : KvStore) (nodeID : String) (leader : Bool) (call : RangeCall) : Except RangeError RangeResponse :=
  match call.request.check with
  | .error e => .error (.malformed e)
  | .ok () =>
    if !call.serializable && !leader then .error .verifyLeader
    else
      let endKey := if call.request.isPrefix then prefixEnd call.request.key else call.request.endKey
      match s.range call.request.key endKey call.request.revision call.request.limit with
      | .error e => .error (.read e)
      | .ok got =>
        .ok {
          header := ⟨s.currentRev.main,s.compactedMainRev,s.raftTerm,s.applyIndex,nodeID⟩
          entries := if call.countOnly then [] else got.entries
          count := got.count }

theorem KvStore.serveRange_ok {s : KvStore} {nodeID : String} {leader : Bool} {call : RangeCall} {res : RangeResponse}
    (served : s.serveRange nodeID leader call = .ok res) :
    ∃ got, s.range call.request.key call.request.stop call.request.revision call.request.limit = .ok got ∧
      res.entries = if call.countOnly then [] else got.entries := by
  rw [serveRange] at served
  split at served
  · cases served
  · split at served
    · cases served
    · dsimp only at served
      split at served
      · cases served
      next got read =>
        cases served
        exact ⟨got,read,rfl⟩

theorem Writer.range_eq_doRange (w : Writer) (key : Bytes) (endKey : Option Bytes) (rev limit : Int) :
    ∃ curr target, w.range key endKey rev limit =
        doRange w.store.kvIndex w.store.backend.buckets curr w.store.compactedMainRev target key endKey limit ∧
      askedRev curr target = askedRev (w.startRev.main + 1) rev := by
  refine ⟨_,_,rfl,?_⟩
  rw [askedRev,askedRev]
  split <;> simp_all

theorem Watcher.exists_passing (w : Watcher) (key : Bytes) : ∃ e, w.passes e = true ∧ e.entry.key = key := by
  by_cases noPut : w.filter = some .noPut
  · exact ⟨⟨.delete,⟨key,none,0,0,0,0⟩⟩,by simp [passes,noPut],rfl⟩
  · refine ⟨⟨.put,⟨key,none,0,0,0,0⟩⟩,?_,rfl⟩
    rw [passes]
    split
    next found => exact absurd found noPut
    all_goals rfl

/-- A prefix request returns exactly the live keys with the prefix, and a watcher takes exactly the events of such keys,
    unless the prefix has no end: then both are about the one key that is the prefix. A read also misses the keys whose
    record is not in the bucket, in a transaction those that it has put itself. -/
theorem prefix_requests_match_prefix_iff (s : KvStore) :
    (∀ (nodeID : String) (leader : Bool) (call : RangeCall) (res : RangeResponse),
      call.request.isPrefix = true → call.request.limit = 0 → call.countOnly = false →
      s.serveRange nodeID leader call = .ok res →
      let asked := askedRev s.currentRev.main call.request.revision
      (res.entries.map some = recordsAt s.kvIndex s.backend.buckets.kv asked (startsWith call.request.key) ↔
        Answerable s.kvIndex s.backend.buckets.kv asked call.request.key)) ∧
    (∀ (before after : List TxnOp) (r : RangeRequest) (w : Writer) (results : List TxnOpResult),
      r.isPrefix = true → r.limit = 0 →
      Engine.applyTxnOps (before ++ .range (some r) :: after) s.newWriter = (w,.ok results) →
      let here := (Engine.applyTxnOps before s.newWriter).1
      let asked := askedRev (here.startRev.main + 1) r.revision
      ∃ got, results[before.length]? = some (.range got) ∧
        (got.entries.map some = recordsAt here.store.kvIndex here.store.backend.buckets.kv asked (startsWith r.key) ↔
          Answerable here.store.kvIndex here.store.backend.buckets.kv asked r.key)) ∧
    ∀ (req : WatchCreateRequest) (generated currentMain : Int), req.isPrefix = true →
      let w := (Creation.begin req generated currentMain).watcher
      ((∀ e, w.accepts e = (w.passes e && startsWith (req.key.getD []) e.entry.key)) ↔ ¬ Endless (req.key.getD [])) := by
  refine ⟨?_,?_,?_⟩
  · intro nodeID leader call res isPrefix unlimited entries served asked
    obtain ⟨got,read,same⟩ := KvStore.serveRange_ok served
    rw [RangeRequest.stop, if_pos isPrefix, unlimited] at read
    rw [same, entries]
    exact doRange_prefix_iff read
  · intro before after r w results isPrefix unlimited run here asked
    obtain ⟨w₁,earlier,checked,w₂,result,reached,check,ran,at_⟩ := Engine.applyTxnOps_split run
    obtain ⟨got,read,rfl⟩ := Engine.applyTxnOp_range (by rwa [TxnOp.checked_range check] at ran)
    have writer : here = w₁ := by rw [show here = (Engine.applyTxnOps before s.newWriter).1 from rfl, reached]
    obtain ⟨curr,target,as_,rev⟩ := w₁.range_eq_doRange r.key r.stop r.revision r.limit
    rw [as_, RangeRequest.stop, if_pos isPrefix, unlimited] at read
    refine ⟨_,at_,?_⟩
    rw [show asked = askedRev (here.startRev.main + 1) r.revision from rfl, writer, ← rev]
    exact doRange_prefix_iff read
  · intro req generated currentMain isPrefix w
    have stop : w.keyEnd = prefixEnd w.keyStart := if_pos isPrefix
    have covers := w.covers_prefixEnd stop
    constructor
    · intro exact_ endless
      obtain ⟨e,passes,key⟩ := w.exists_passing (w.keyStart ++ [0])
      have starts : startsWith (req.key.getD []) e.entry.key = true := by
        rw [key, startsWith_iff]
        exact List.prefix_append _ _
      have accepted := exact_ e
      rw [Watcher.accepts, passes, starts] at accepted
      have same := ((covers _).mp accepted).2 endless
      rw [key] at same
      simp at same
    · intro ends e
      rw [Watcher.accepts]
      congr 1
      rw [Bool.eq_iff_iff, covers, startsWith_iff]
      exact and_iff_left fun endless => absurd endless ends

/-- Three keys, two of which start with `a`: the request, an operation of a transaction and a watcher. -/
theorem prefix_requests_match_prefix_plain :
    let s := (KvStore.new Backend.empty).txns [[.put [97] (some [1]) 0,.put [97,98] (some [2]) 0,.put [98] (some [3]) 0]]
    let r : RangeRequest := ⟨[97],none,0,0,true⟩
    (∃ res, s.serveRange "a" true ⟨r,false,false⟩ = .ok res ∧
      res.entries.map some = recordsAt s.kvIndex s.backend.buckets.kv 1 (startsWith [97])) ∧
    (∃ w results got, Engine.applyTxnOps [.range (some r)] s.newWriter = (w,.ok results) ∧ results[0]? = some (.range got) ∧
      got.entries.map some = recordsAt s.kvIndex s.backend.buckets.kv 2 (startsWith [97])) ∧
    ∀ e, (Creation.begin ⟨1,some [97],none,true,0,none⟩ 1 1).watcher.accepts e = startsWith [97] e.entry.key := by
  intro s r
  obtain ⟨served,op,watched⟩ := prefix_requests_match_prefix_iff s
  refine ⟨?_,?_,(watched ⟨1,some [97],none,true,0,none⟩ 1 1 rfl).mpr (by decide)⟩
  · have run : s.serveRange "a" true ⟨r,false,false⟩ =
        .ok ⟨⟨1,0,0,0,"a"⟩,[⟨[97],some [1],1,1,1,0⟩,⟨[97,98],some [2],1,1,1,0⟩],2⟩ := by decide
    exact ⟨_,run,(served "a" true ⟨r,false,false⟩ _ rfl rfl rfl run).mpr (by decide)⟩
  · have result : (Engine.applyTxnOps [.range (some r)] s.newWriter).2 =
        .ok [.range ⟨[⟨[97],some [1],1,1,1,0⟩,⟨[97,98],some [2],1,1,1,0⟩],2⟩] := by decide
    have run : Engine.applyTxnOps ([] ++ .range (some r) :: []) s.newWriter = (_,.ok _) := Prod.ext rfl result
    obtain ⟨got,first,exact_⟩ := op [] [] r _ _ rfl rfl run
    exact ⟨_,_,got,run,first,exact_.mpr (by decide)⟩

/-- With the keys ff and ff01 in the store, neither request for the prefix ff returns the second one, and a watcher of the
    prefix does not take its events. -/
theorem prefix_of_top_bytes_is_single_key :
    let s := (KvStore.new Backend.empty).txns [[.put [255] (some [1]) 0,.put [255,1] (some [2]) 0]]
    let r : RangeRequest := ⟨[255],none,0,0,true⟩
    (s.serveRange "a" true ⟨r,false,false⟩).map (fun res => (res.entries.map (·.key),res.count)) = .ok ([[255]],1) ∧
    (Engine.applyTxnOps [.range (some r)] s.newWriter).2 = .ok [.range ⟨[⟨[255],some [1],1,1,1,0⟩],1⟩] ∧
    (s.kvIndex.look [255,1] 1).isSome = true ∧
    (Creation.begin ⟨1,some [255],none,true,0,none⟩ 1 1).watcher.accepts (toKvEvent ⟨[255,1],some [2],1,1,1,0⟩) = false := by
  decide

end Kave
