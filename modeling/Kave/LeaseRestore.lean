import Kave.Current
import Kave.RemovalOrder

/-! The restoration of the leases from their records, page by page, and of the key sets from the records of the keys. -/

namespace Kave

namespace LeaseManager

/-! ### The lease records -/

/-- The records that are granted again, in their order: those with time left, and none behind the largest id. -/
def reached : List (UInt64 × LeaseRecord) → List (Int64 × Int)
  | [] => []
  | (_,r) :: rest =>
    if r.remainingTTL ≤ 0 then reached rest
    else (r.id,r.remainingTTL) :: if r.id = Int64.maxValue then [] else reached rest

section

variable {V : Type} {decode : V → Option LeaseRecord} {key : UInt64}

variable (decode) in
/-- The records that decode, in their order. -/
def decoded (es : List (UInt64 × V)) : List (UInt64 × LeaseRecord) := es.filterMap fun e => (decode e.2).map (e.1,·)

theorem mem_decoded {es : List (UInt64 × V)} {r : LeaseRecord} :
    (key,r) ∈ decoded decode es ↔ ∃ v, (key,v) ∈ es ∧ decode v = some r := by
  simp [decoded]

theorem decoded_some (es : List (UInt64 × LeaseRecord)) : decoded some es = es := by simp [decoded]

theorem scanLeases_pass (key : UInt64) {v : V} (spent : ∀ r, decode v = some r → r.remainingTTL ≤ 0) (es : List (UInt64 × V)) (last : Int64) :
    scanLeases decode ((key,v) :: es) [] last = scanLeases decode es [] (decodeLeaseBucketKey key) ∧
      reached (decoded decode ((key,v) :: es)) = reached (decoded decode es) := by
  have open_ : ¬ ([] : List (Int64 × Int)).length = maxBatchSize := by simp [maxBatchSize]
  rw [scanLeases,if_neg open_]
  cases decodes : decode v with
  | none => exact ⟨rfl,by simp [decoded,decodes]⟩
  | some r =>
    have found : decoded decode ((key,v) :: es) = (key,r) :: decoded decode es := by simp [decoded,decodes]
    rw [found,reached,if_pos (spent r decodes)]
    exact ⟨if_pos (spent r decodes),rfl⟩

/-- A page is the first record that decodes and has time left, or there is none. -/
theorem scanLeases_spec (es : List (UInt64 × V)) (last : Int64) :
    (∃ last', scanLeases decode es [] last = (false,[],last') ∧ reached (decoded decode es) = []) ∨
    ∃ seen key v r rest, es = seen ++ (key,v) :: rest ∧ decode v = some r ∧
      scanLeases decode es [] last = (decide (rest ≠ []),[(r.id,r.remainingTTL)],decodeLeaseBucketKey key) ∧
      reached (decoded decode es) =
        (r.id,r.remainingTTL) :: if r.id = Int64.maxValue then [] else reached (decoded decode rest) := by
  induction es generalizing last with
  | nil => exact Or.inl ⟨last,rfl,rfl⟩
  | cons e es ih =>
    obtain ⟨key,v⟩ := e
    by_cases spent : ∀ r, decode v = some r → r.remainingTTL ≤ 0
    · obtain ⟨scan,reached⟩ := scanLeases_pass key spent es last
      rw [scan,reached]
      rcases ih (decodeLeaseBucketKey key) with none | ⟨seen,key',v',r',rest,split,decodes,scan,first⟩
      · exact Or.inl none
      · exact Or.inr ⟨(key,v) :: seen,key',v',r',rest,by rw [split]; rfl,decodes,scan,first⟩
    · obtain ⟨r,spent⟩ := not_forall.mp spent
      obtain ⟨decodes,spent⟩ := Classical.not_imp.mp spent
      have found : decoded decode ((key,v) :: es) = (key,r) :: decoded decode es := by simp [decoded,decodes]
      rw [found,reached,if_neg spent]
      refine Or.inr ⟨[],key,v,r,es,rfl,decodes,?_,rfl⟩
      rw [scanLeases,if_neg (by simp [maxBatchSize]),decodes]
      simp only [if_neg spent]
      cases es with
      | nil => rfl
      | cons e es => rfl

end

variable {key : UInt64} {id : Int64} {start : UInt64} {l : Lease} {s : KvStore}

theorem lease_regrant (now : Readings) (state : LeaseManager × KvStore) (l : Int64 × Int)
    (different : key ≠ leaseBucketKey l.1) :
    (regrant now state l).2.backend.buckets.lease.find? key = state.2.backend.buckets.lease.find? key := by
  unfold regrant
  split
  · rfl
  · unfold addLease
    cases state.1.find? l.1 with
    | some _ => rfl
    | none =>
      change (state.2.backend.buckets.lease.insert (leaseBucketKey l.1) _).find? key = _
      rw [SortedMap.find_insert,if_neg different]

/-- Every record is under its own id. -/
def Filed (bucket : SortedMap UInt64 LeaseRecord) : Prop := ∀ key r, bucket.find? key = some r → leaseBucketKey r.id = key

theorem next_page {β : Type} {bucket : SortedMap UInt64 β} {seen rest : List (UInt64 × β)} {e : UInt64 × β}
    (page : bucket.ascend start (fun _ => true) = seen ++ e :: rest) (more : rest ≠ []) (named : leaseBucketKey id = e.1) :
    (∀ k, leaseBucketKey (id + 1) ≤ k ↔ e.1 < k) ∧ bucket.ascend (leaseBucketKey (id + 1)) (fun _ => true) = rest := by
  have next : ∀ k, leaseBucketKey (id + 1) ≤ k ↔ e.1 < k := by
    intro k
    have room : e.1.toNat + 1 < 2 ^ 64 := by
      obtain ⟨e',es,rfl⟩ := List.exists_cons_of_ne_nil more
      have sorted := (bucket.filter fun k _ => decide (start ≤ k)).sorted
      rw [← SortedMap.ascend_all,page] at sorted
      have less := (List.pairwise_cons.mp (List.pairwise_append.mp sorted).2.1).1 e' List.mem_cons_self
      have below := e'.1.toNat_lt
      have less := UInt64.lt_iff_toNat_lt.mp less
      omega
    have step : leaseBucketKey (id + 1) = e.1 + 1 := by
      rw [leaseBucketKey,Int64.toUInt64_add,← named]
      rfl
    rw [step,UInt64.le_iff_toNat_le,UInt64.lt_iff_toNat_lt,UInt64.toNat_add]
    change (e.1.toNat + 1) % 2 ^ 64 ≤ _ ↔ _
    rw [Nat.mod_eq_of_lt room]
    exact Nat.succ_le_iff
  exact ⟨next,SortedMap.ascend_after page fun k _ => next k⟩

theorem mem_page {β : Type} {bucket : SortedMap UInt64 β} {seen rest : List (UInt64 × β)} {v : β}
    (page : bucket.ascend start (fun _ => true) = seen ++ (key,v) :: rest) : bucket.find? key = some v ∧ start ≤ key := by
  have inside : (key,v) ∈ bucket.ascend start fun _ => true := by
    rw [page]
    simp
  rw [SortedMap.ascend_all] at inside
  obtain ⟨present,above⟩ := List.mem_filter.mp inside
  exact ⟨SortedMap.mem_entries.mp present,of_decide_eq_true above⟩

theorem decodeLeaseBucketKey_eq (named : leaseBucketKey id = key) : decodeLeaseBucketKey key = id := by
  rw [← named]
  exact Int64.toInt64_toUInt64 id

section

variable {S V : Type} {decode : V → Option LeaseRecord} {records : S → SortedMap UInt64 V} {regrant : S → Int64 × Int → S}
  (others : ∀ state l key, key ≠ leaseBucketKey l.1 → (records (regrant state l)).find? key = (records state).find? key)

include others

/-- The loop ends, and has granted again what is reached. -/
theorem leasePages_eq {bucket : SortedMap UInt64 V}
    (filed : ∀ key v r, bucket.find? key = some v → decode v = some r → leaseBucketKey r.id = key) {fuel : Nat} (last : Int64) {state : S} (same : ∀ key, start ≤ key → (records state).find? key = bucket.find? key)
    (enough : (bucket.ascend start fun _ => true).length < fuel) :
    leasePages decode records regrant fuel start last state =
      some ((reached (decoded decode (bucket.ascend start fun _ => true))).foldl regrant state) := by
  induction fuel generalizing start last state with
  | zero => omega
  | succ fuel ih =>
    rw [leasePages,SortedMap.ascend_congr same]
    rcases @scanLeases_spec V decode (bucket.ascend start fun _ => true) last with
      ⟨last',scan,none⟩ | ⟨seen,key,v,r,rest,page,decodes,scan,first⟩
    · rw [scan,none]
      rfl
    · obtain ⟨present,above⟩ := mem_page page
      have named := filed key v r present decodes
      rw [scan,first,decodeLeaseBucketKey_eq named,List.foldl_cons]
      by_cases stop : rest = [] ∨ r.id = Int64.maxValue
      · have ends : (if r.id = Int64.maxValue then [] else reached (decoded decode rest)) = [] := by
          rcases stop with rfl | max
          · simp [decoded,reached]
          · rw [if_pos max]
        rw [ends]
        simp only [List.foldl_cons,List.foldl_nil]
        rw [if_pos (by simpa using stop)]
      · obtain ⟨more,max⟩ := not_or.mp stop
        rw [if_neg max]
        simp only [List.foldl_cons,List.foldl_nil]
        rw [if_neg (by simp [more,max]),if_pos (Or.inl (by simp))]
        obtain ⟨next,left⟩ := next_page page more named
        rw [← left]
        refine ih r.id (fun k le => ?_) ?_
        · have less : key < k := (next k).mp le
          rw [others state _ k (by rw [named]; exact less.ne'),same k (above.trans less.le)]
        · rw [left]
          rw [page] at enough
          simp at enough
          omega

theorem leasePages_all {state : S} (filed : ∀ key v r, (records state).find? key = some v → decode v = some r → leaseBucketKey r.id = key)
    {fuel : Nat} (enough : (records state).entries.length < fuel) : leasePages decode records regrant fuel 0 Int64.minValue state =
      some ((reached (decoded decode (records state).entries)).foldl regrant state) := by
  have all : (records state).ascend 0 (fun _ => true) = (records state).entries := by
    rw [SortedMap.ascend_all]
    exact List.filter_eq_self.mpr fun e _ => by simp
  rw [leasePages_eq others filed _ (fun _ _ => rfl) (by rw [all]; exact enough),all]

end

theorem maxKey_lt_iff (id : Int64) : leaseBucketKey Int64.maxValue < leaseBucketKey id ↔ id < 0 := by
  rw [UInt64.lt_iff_toNat_lt,Int64.lt_iff_toInt_lt]
  change 2 ^ 63 - 1 < id.toBitVec.toNat ↔ id.toBitVec.toInt < 0
  rw [BitVec.toInt_eq_toNat_cond]
  have below := id.toBitVec.isLt
  split <;> omega

/-- The lease is lost behind the page that ends with the largest id. -/
def Lost (bucket : SortedMap UInt64 LeaseRecord) (id : Int64) : Prop :=
  id < 0 ∧ ∃ r ∈ bucket.find? (leaseBucketKey Int64.maxValue), 0 < r.remainingTTL

theorem mem_reached {es : List (UInt64 × LeaseRecord)} (sorted : es.Pairwise fun a b => a.1 < b.1)
    (filed : ∀ e ∈ es, leaseBucketKey e.2.id = e.1) {ttl : Int} :
    (id,ttl) ∈ reached es ↔ ∃ r, (leaseBucketKey id,r) ∈ es ∧ r.remainingTTL = ttl ∧ 0 < ttl ∧
      ¬(id < 0 ∧ ∃ r', (leaseBucketKey Int64.maxValue,r') ∈ es ∧ 0 < r'.remainingTTL) := by
  induction es with
  | nil => simp [reached]
  | cons e es ih =>
    obtain ⟨key,r⟩ := e
    obtain ⟨less,sorted⟩ := List.pairwise_cons.mp sorted
    obtain ⟨named,filed⟩ := List.forall_mem_cons.mp filed
    simp only at named less
    have ih := ih sorted filed
    have fits : ∀ {id' : Int64}, leaseBucketKey id' = key ↔ id' = r.id := by
      intro id'
      rw [← named,leaseBucketKey_inj]
    rw [reached]
    by_cases spent : r.remainingTTL ≤ 0
    · rw [if_pos spent,ih]
      simp only [List.mem_cons,Prod.mk.injEq,fits]
      constructor
      · rintro ⟨r',inside,same,positive,kept⟩
        refine ⟨r',Or.inr inside,same,positive,?_⟩
        rintro ⟨negative,r'',(⟨-,rfl⟩ | here),left⟩
        · omega
        · exact kept ⟨negative,r'',here,left⟩
      · rintro ⟨r',(⟨-,rfl⟩ | inside),same,positive,kept⟩
        · omega
        · exact ⟨r',inside,same,positive,fun ⟨negative,r'',here,left⟩ => kept ⟨negative,r'',Or.inr here,left⟩⟩
    · rw [if_neg spent,List.mem_cons,Prod.mk.injEq]
      by_cases max : r.id = Int64.maxValue
      · rw [if_pos max]
        simp only [List.not_mem_nil,or_false,List.mem_cons,Prod.mk.injEq,fits]
        constructor
        · rintro ⟨rfl,rfl⟩
          refine ⟨r,Or.inl ⟨rfl,rfl⟩,rfl,by omega,fun ⟨negative,_⟩ => ?_⟩
          rw [max] at negative
          exact absurd negative (by decide)
        · rintro ⟨r',(⟨rfl,rfl⟩ | inside),same,positive,kept⟩
          · exact ⟨rfl,same.symm⟩
          · -- the largest id comes first, with time left
            have behind := less _ inside
            simp only at behind
            rw [← named,max,maxKey_lt_iff] at behind
            exact absurd ⟨behind,r,Or.inl ⟨max.symm,rfl⟩,by omega⟩ kept
      · rw [if_neg max,ih]
        simp only [List.mem_cons,Prod.mk.injEq,fits]
        constructor
        · rintro (⟨rfl,rfl⟩ | ⟨r',inside,same,positive,kept⟩)
          · refine ⟨r,Or.inl ⟨rfl,rfl⟩,rfl,by omega,?_⟩
            rintro ⟨negative,r',(⟨same,-⟩ | here),-⟩
            · exact max same.symm
            · have behind := less _ here
              rw [← named] at behind
              exact absurd ((maxKey_lt_iff r.id).mpr negative) behind.asymm
          · refine ⟨r',Or.inr inside,same,positive,?_⟩
            rintro ⟨negative,r'',(⟨same,-⟩ | here),left⟩
            · exact max same.symm
            · exact kept ⟨negative,r'',here,left⟩
        · rintro ⟨r',(⟨rfl,rfl⟩ | inside),same,positive,kept⟩
          · exact Or.inl ⟨rfl,same.symm⟩
          · exact Or.inr ⟨r',inside,same,positive,fun ⟨negative,r'',here,left⟩ => kept ⟨negative,r'',Or.inr here,left⟩⟩

theorem reached_distinct {es : List (UInt64 × LeaseRecord)} (sorted : es.Pairwise fun a b => a.1 < b.1)
    (filed : ∀ e ∈ es, leaseBucketKey e.2.id = e.1) : ((reached es).map (·.1)).Nodup := by
  have sub : ∀ es, (reached es).Sublist (es.map fun e => (e.2.id,e.2.remainingTTL)) := by
    intro es
    induction es with
    | nil => exact List.Sublist.refl _
    | cons e es ih =>
      rw [reached,List.map_cons]
      split
      · exact ih.cons _
      · refine List.Sublist.cons_cons _ ?_
        split
        · exact List.nil_sublist _
        · exact ih
  refine ((sub es).map (·.1)).nodup ?_
  rw [List.map_map,List.Nodup,List.pairwise_map]
  refine (List.Pairwise.and_mem.mp sorted).imp ?_
  rintro a b ⟨inA,inB,less⟩ same
  rw [← filed a inA,← filed b inB] at less
  exact absurd (congrArg leaseBucketKey same) less.ne

theorem find_regrant (now : Readings) (state : LeaseManager × KvStore) (r : Int64 × Int) (free : state.1.find? r.1 = none) (id : Int64) :
    (regrant now state r).1.find? id =
      if 0 < r.2 ∧ r.1 ≠ 0 ∧ id = r.1 then some (Lease.new (now r.1) r.1 (min r.2 maxTTL)) else state.1.find? id := by
  unfold regrant
  by_cases refused : r.2 ≤ 0 ∨ r.1 = 0
  · rw [if_pos refused,if_neg]
    rintro ⟨positive,nonzero,-⟩
    rcases refused with none | zero
    · omega
    · exact nonzero zero
  · rw [if_neg refused]
    obtain ⟨positive,nonzero⟩ := not_or.mp refused
    rw [not_le] at positive
    unfold addLease
    rw [free]
    change ((state.1.save _).pushToHeap _).find? id = _
    rw [find_pushToHeap,find_save]
    by_cases same : id = r.1 <;> simp [positive,nonzero,Lease.new,same]

theorem find_foldl_regrant (now : Readings) {rs : List (Int64 × Int)} (distinct : (rs.map (·.1)).Nodup)
    {state : LeaseManager × KvStore} (free : ∀ r ∈ rs, state.1.find? r.1 = none) :
    (rs.foldl (regrant now) state).1.find? id = some l ↔
      state.1.find? id = some l ∨ ∃ ttl, (id,ttl) ∈ rs ∧ 0 < ttl ∧ id ≠ 0 ∧ l = Lease.new (now id) id (min ttl maxTTL) := by
  induction rs generalizing state with
  | nil => simp
  | cons r rest ih =>
    rw [List.map_cons,List.nodup_cons] at distinct
    obtain ⟨mine,free⟩ := List.forall_mem_cons.mp free
    have free' : ∀ r' ∈ rest, (regrant now state r).1.find? r'.1 = none := by
      intro r' inside
      rw [find_regrant now state r mine,if_neg,free r' inside]
      rintro ⟨-,-,same⟩
      exact distinct.1 (same ▸ List.mem_map_of_mem inside)
    rw [List.foldl_cons,ih distinct.2 free',find_regrant now state r mine]
    by_cases here : 0 < r.2 ∧ r.1 ≠ 0 ∧ id = r.1
    · obtain ⟨positive,nonzero,rfl⟩ := here
      have only : ∀ ttl, (r.1,ttl) ∉ rest := fun ttl inside => distinct.1 (List.mem_map.mpr ⟨_,inside,rfl⟩)
      rw [if_pos ⟨positive,nonzero,rfl⟩,mine]
      constructor
      · rintro (same | ⟨ttl,inside,-⟩)
        · exact Or.inr ⟨r.2,List.mem_cons_self,positive,nonzero,(Option.some.inj same).symm⟩
        · exact absurd inside (only ttl)
      · rintro (none | ⟨ttl,inside,-,-,rfl⟩)
        · cases none
        · rcases List.mem_cons.mp inside with same | inside
          · rw [← same]
            exact Or.inl rfl
          · exact absurd inside (only ttl)
    · rw [if_neg here]
      refine or_congr_right (exists_congr fun ttl => ?_)
      rw [List.mem_cons]
      constructor
      · exact fun ⟨inside,others⟩ => ⟨Or.inr inside,others⟩
      · rintro ⟨(rfl | inside),positive,nonzero,same⟩
        · exact absurd ⟨positive,nonzero,rfl⟩ here
        · exact ⟨inside,positive,nonzero,same⟩

theorem regrantPages_all (now : Readings) (filed : Filed s.backend.buckets.lease) :
    regrantPages now (s.backend.buckets.lease.entries.length + 1) 0 Int64.minValue (LeaseManager.new,s) =
      (reached s.backend.buckets.lease.entries).foldl (regrant now) (LeaseManager.new,s) := by
  have ends : leasePages some (·.2.backend.buckets.lease) (regrant now) (s.backend.buckets.lease.entries.length + 1) 0 Int64.minValue
      (LeaseManager.new,s) = some _ :=
    leasePages_all (fun state l _ => lease_regrant now state l) (fun key r _ found is => Option.some.inj is ▸ filed key r found)
      (Nat.lt_succ_self _)
  rw [regrantPages,ends,decoded_some,Option.getD_some]

theorem find_granted (now : Readings) (filed : Filed s.backend.buckets.lease) :
    ((reached s.backend.buckets.lease.entries).foldl (regrant now) (LeaseManager.new,s)).1.find? id = some l ↔
      id ≠ 0 ∧ ¬ Lost s.backend.buckets.lease id ∧ ∃ r, s.backend.buckets.lease.find? (leaseBucketKey id) = some r ∧
        0 < r.remainingTTL ∧ l = Lease.new (now id) id (min r.remainingTTL maxTTL) := by
  have sorted := s.backend.buckets.lease.sorted
  have filed' : ∀ e ∈ s.backend.buckets.lease.entries, leaseBucketKey e.2.id = e.1 :=
    fun e inside => filed e.1 e.2 (SortedMap.mem_entries.mp inside)
  rw [find_foldl_regrant now (reached_distinct sorted filed') fun _ _ => rfl]
  simp only [find_new,reduceCtorEq,false_or,mem_reached sorted filed',SortedMap.mem_entries]
  constructor
  · rintro ⟨ttl,⟨r,found,rfl,positive,kept⟩,-,nonzero,same⟩
    exact ⟨nonzero,kept,r,found,positive,same⟩
  · rintro ⟨nonzero,kept,r,found,positive,same⟩
    exact ⟨_,⟨r,found,rfl,positive,kept⟩,positive,nonzero,same⟩

/-! ### The key records -/

theorem reattachPages_eq {kv : KvBucket}
    (distinct : ∀ bk bk', (kv.find? bk).isSome → (kv.find? bk').isSome → bk.rev = bk'.rev → bk = bk') {fuel : Nat}
    {start : KvBucketKey} (lm : LeaseManager) (enough : (kv.ascend start fun _ => true).length < fuel) :
    reattachPages kv fuel start lm = (kv.ascend start fun _ => true).foldl (fun lm e => reattach lm e.1 e.2) lm := by
  induction fuel generalizing start lm with
  | zero => omega
  | succ fuel ih =>
    rw [reattachPages]
    cases page : kv.ascend start fun _ => true with
    | nil => rfl
    | cons e rest =>
      obtain ⟨bk,entry⟩ := e
      simp only [List.foldl_cons]
      by_cases last : rest = []
      · rw [if_pos last,last]
        rfl
      · rw [if_neg last]
        have present : (kv.find? bk).isSome := by
          have inside : (bk,entry) ∈ kv.ascend start fun _ => true := by rw [page]; simp
          rw [SortedMap.ascend_all] at inside
          rw [SortedMap.mem_entries.mp (List.mem_of_mem_filter inside)]
          rfl
        have next : ∀ k, (kv.find? k).isSome →
            (KvBucketKey.encodeRevisionAsBucketKey (nextFullRevision bk.rev) ≤ k ↔ bk < k) := by
          intro k there
          have marker : ¬ k.tombstone < false := by cases k.tombstone <;> decide
          have start : KvBucketKey.encodeRevisionAsBucketKey (nextFullRevision bk.rev) ≤ k ↔ bk.rev < k.rev := by
            rw [← not_lt,KvBucketKey.lt_iff,KvBucketKey.encodeRevisionAsBucketKey,Revision.lt_iff,Revision.lt_iff,nextFullRevision]
            simp only [marker,and_false,or_false]
            omega
          rw [start,KvBucketKey.lt_iff]
          constructor
          · exact Or.inl
          · rintro (less | ⟨same,less⟩)
            · exact less
            · rw [distinct bk k present there same] at less
              exact absurd less (lt_irrefl _)
        have first : kv.ascend start (fun _ => true) = [] ++ (bk,entry) :: rest := page
        have left := SortedMap.ascend_after first next
        rw [← left]
        refine ih _ ?_
        rw [left]
        rw [page] at enough
        simp at enough
        omega

theorem isSome_find_reattach (lm : LeaseManager) (records : List (KvBucketKey × Entry)) (id : Int64) :
    ((records.foldl (fun lm e => reattach lm e.1 e.2) lm).find? id).isSome = (lm.find? id).isSome := by
  induction records generalizing lm with
  | nil => rfl
  | cons e rest ih =>
    rw [List.foldl_cons,ih,reattach]
    split
    · rfl
    · split
      · exact isSome_find_attachKey _ _ _ _
      · rfl

theorem attached_reattach (lm : LeaseManager) (records : List (KvBucketKey × Entry)) (nonzero : id ≠ 0) (key : Bytes) :
    (records.foldl (fun lm e => reattach lm e.1 e.2) lm).attached id key = true ↔ lm.attached id key = true ∨
      (lm.find? id).isSome ∧ ∃ e ∈ records, e.1.tombstone = false ∧ e.2.leaseID = id ∧ e.2.key = key := by
  induction records generalizing lm with
  | nil => simp
  | cons e rest ih =>
    have there := isSome_find_reattach lm [e] id
    rw [List.foldl_cons,List.foldl_nil] at there
    rw [List.foldl_cons,ih,there,List.exists_mem_cons_iff]
    have first : (reattach lm e.1 e.2).attached id key = true ↔ lm.attached id key = true ∨
        (lm.find? id).isSome ∧ e.1.tombstone = false ∧ e.2.leaseID = id ∧ e.2.key = key := by
      rw [reattach]
      cases e.1.tombstone with
      | true => simp
      | false =>
        by_cases none : e.2.leaseID = 0
        · have other : e.2.leaseID ≠ id := fun same => nonzero (same.symm.trans none)
          simp [none,Ne.symm nonzero]
        · rw [if_neg (by simp),if_pos none,attached_attachKey,Bool.or_eq_true,Bool.and_eq_true,decide_eq_true_eq,or_comm]
          refine or_congr_right ?_
          constructor
          · rintro ⟨found,rfl,rfl⟩
            exact ⟨found,rfl,rfl,rfl⟩
          · rintro ⟨found,-,rfl,rfl⟩
            exact ⟨found,rfl,rfl⟩
    rw [first,or_assoc,← and_or_left]

theorem SameLeases.reattach (lm : LeaseManager) (records : List (KvBucketKey × Entry)) :
    lm.SameLeases (records.foldl (fun lm e => LeaseManager.reattach lm e.1 e.2) lm) := by
  induction records generalizing lm with
  | nil => exact .refl lm
  | cons e rest ih =>
    refine SameLeases.trans ?_ (ih _)
    change lm.SameLeases (LeaseManager.reattach lm e.1 e.2)
    rw [LeaseManager.reattach]
    split
    · exact .refl lm
    · split
      · exact .attachKey lm _ _
      · exact .refl lm

theorem restore_eq (now : Readings) (filed : Filed s.backend.buckets.lease) (orderly : s.Orderly) :
    let granted := (reached s.backend.buckets.lease.entries).foldl (regrant now) (LeaseManager.new,s)
    restore now s = (s.backend.buckets.kv.entries.foldl (fun lm e => reattach lm e.1 e.2) granted.1,granted.2) := by
  intro granted
  have same : (regrantPages now (s.backend.buckets.lease.entries.length + 1) 0 Int64.minValue (LeaseManager.new,s)) = granted :=
    regrantPages_all now filed
  have kv : granted.2.backend.buckets.kv = s.backend.buckets.kv := by
    have kept := (KvStore.SameKv.restoreLeases now s).content
    rw [restore,same] at kept
    exact congrArg Content.kv kept
  have all : s.backend.buckets.kv.ascend (KvBucketKey.encodeRevisionAsBucketKey Revision.zero) (fun _ => true) =
      s.backend.buckets.kv.entries := by
    rw [SortedMap.ascend_all]
    refine List.filter_eq_self.mpr fun e inside => decide_eq_true (KvBucketKey.lt_iff.mpr (Or.inl ?_)).le
    have found := SortedMap.mem_entries.mp inside
    exact Revision.lt_of_main_lt (orderly.stamped.early e.1 (by rw [found]; rfl)).1
  rw [restore,same]
  simp only [kv]
  rw [reattachPages_eq orderly.stamped.distinct _ (by rw [all]; omega),all]

theorem find_restore (now : Readings) {s : KvStore} (filed : Filed s.backend.buckets.lease) (orderly : s.Orderly) {id : Int64}
    {l : Lease} : ((restore now s).1.find? id).map Lease.bare = some l ↔
      id ≠ 0 ∧ ¬ Lost s.backend.buckets.lease id ∧ ∃ r, s.backend.buckets.lease.find? (leaseBucketKey id) = some r ∧
        0 < r.remainingTTL ∧ l = Lease.new (now id) id (min r.remainingTTL maxTTL) := by
  rw [restore_eq now filed orderly,(SameLeases.reattach _ _).leases,← find_granted now filed,Option.map_eq_some_iff]
  constructor
  · rintro ⟨l',found,rfl⟩
    obtain ⟨-,-,r,-,-,rfl⟩ := (find_granted now filed).mp found
    exact found
  · intro found
    refine ⟨l,found,?_⟩
    obtain ⟨-,-,r,-,-,rfl⟩ := (find_granted now filed).mp found
    rfl

theorem attached_restore (now : Readings) (filed : Filed s.backend.buckets.lease) (orderly : s.Orderly)
    (there : ((restore now s).1.find? id).isSome) (key : Bytes) : (restore now s).1.attached id key = true ↔
      ∃ bk e, s.backend.buckets.kv.find? bk = some e ∧ bk.tombstone = false ∧ e.leaseID = id ∧ e.key = key := by
  obtain ⟨l,found⟩ := Option.isSome_iff_exists.mp there
  obtain ⟨nonzero,-⟩ := (find_restore now filed orderly (l := l.bare)).mp (by rw [found]; rfl)
  rw [restore_eq now filed orderly] at there ⊢
  simp only at there ⊢
  rw [isSome_find_reattach] at there
  have empty : ((reached s.backend.buckets.lease.entries).foldl (regrant now) (LeaseManager.new,s)).1.attached id key = false := by
    rw [attached]
    cases granted : ((reached s.backend.buckets.lease.entries).foldl (regrant now) (LeaseManager.new,s)).1.find? id with
    | none => rfl
    | some l =>
      obtain ⟨-,-,r,-,-,rfl⟩ := (find_granted now filed).mp granted
      rfl
  rw [attached_reattach _ _ nonzero,empty]
  simp only [there,Bool.false_eq_true,false_or,true_and,Prod.exists,SortedMap.mem_entries]

end LeaseManager

end Kave
