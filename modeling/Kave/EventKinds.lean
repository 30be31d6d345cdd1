import Kave.ChangeLog
import Kave.Observers
import Kave.Runs
import Kave.Watch

/-! The kinds of the events. An event is taken for a deletion if its entry has no value, whatever the mark of the record, so
    that it matters which values can get into an entry. -/

namespace Kave

open TreeIndex

/-! ### Records that can be told apart -/

/-- A put writes a value. -/
def Write.Valued : Write → Prop
  | .put _ value _ => value.getD [] ≠ []
  | .delete _ => True

/-- The kind of the event tells the mark of the record. -/
def tellsKind (e : KvBucketKey × Entry) : Prop := (toKvEvent e.2).kind = .delete ↔ e.1.tombstone = true

theorem toKvEvent_kind (e : Entry) : (toKvEvent e).kind = .delete ↔ e.key ≠ [] ∧ e.value.getD [] = [] := by
  rw [toKvEvent]
  by_cases tombstone : e.key ≠ [] ∧ e.value.getD [] = [] <;> simp [Entry.tombstone,tombstone]

theorem Write.Recorded.tellsKind_iff {w : Write} {e : KvBucketKey × Entry} (recorded : w.Recorded e) (named : w.key ≠ []) :
    tellsKind e ↔ w.Valued := by
  rw [tellsKind,toKvEvent_kind,recorded.named]
  cases w with
  | put key value leaseID =>
    obtain ⟨unmarked,-,is⟩ := recorded
    simp [unmarked,is,named,Write.Valued]
  | delete key =>
    obtain ⟨marked,-,is⟩ := recorded
    simp [marked,is,named,Write.Valued]

theorem recorded_tells {ws : List Write} {log : List (KvBucketKey × Entry)} (recorded : List.Forall₂ Write.Recorded ws log)
    (named : ∀ w ∈ ws, w.key ≠ []) :
    (∀ e ∈ log, e.2.key ≠ []) ∧ ((∀ e ∈ log, tellsKind e) ↔ ∀ w ∈ ws, w.Valued) := by
  induction recorded with
  | nil => simp
  | cons here rest ih =>
    obtain ⟨first,others⟩ := List.forall_mem_cons.mp named
    obtain ⟨keys,tells⟩ := ih others
    rw [List.forall_mem_cons,List.forall_mem_cons,List.forall_mem_cons,here.tellsKind_iff first,tells]
    exact ⟨⟨here.named ▸ first,keys⟩,Iff.rfl⟩

/-- No key is empty, and every put record has a value. -/
structure Content.Legible (c : Content) : Prop where
  index : c.index.records [] = []
  named : ∀ bk e, c.kv.find? bk = some e → e.key ≠ []
  valued : ∀ bk e, c.kv.find? bk = some e → bk.tombstone = false → e.value.getD [] ≠ []

theorem WriteStep.named {next : Int} {n : Nat} {a b : Content} {w : Write} (step : WriteStep next n a w b)
    (index : a.index.records [] = []) (put : ∀ key value leaseID, w = .put key value leaseID → key ≠ []) :
    w.key ≠ [] ∧ b.index.records [] = [] := by
  have named : w.key ≠ [] := by
    cases step with
    | put wrote => exact put _ _ _ rfl
    | @delete key ti alive wrote =>
      rintro rfl
      obtain ⟨⟨created,mod,version⟩,found⟩ := Option.isSome_iff_exists.mp alive
      have member := (look_mem found).1
      rw [show ([] : Bytes) = Write.key (.delete []) from rfl] at index
      exact absurd (index ▸ member) List.not_mem_nil
  obtain ⟨bk,entry,-,wrote,-⟩ := step.recorded
  exact ⟨named,by rw [wrote.records_other (Ne.symm named),index]⟩

theorem Chain.named {next : Int} {n : Nat} {a b : Content} {ws : List Write} (chain : Chain next n a ws b)
    (index : a.index.records [] = []) (puts : ∀ key value leaseID, .put key value leaseID ∈ ws → key ≠ []) :
    (∀ w ∈ ws, w.key ≠ []) ∧ b.index.records [] = [] := by
  induction chain with
  | nil => exact ⟨by simp,index⟩
  | cons step rest ih =>
    obtain ⟨named,index'⟩ := step.named index fun key value leaseID is => puts key value leaseID (is ▸ List.mem_cons_self)
    obtain ⟨others,final⟩ := ih index' fun key value leaseID member => puts key value leaseID (List.mem_cons_of_mem _ member)
    exact ⟨List.forall_mem_cons.mpr ⟨named,others⟩,final⟩

/-! ### Transactions -/

/-- A put call has a key. -/
def Op.Named : Op → Prop
  | .put key _ _ => key ≠ []
  | .deleteKey _ | .deleteRange _ _ => True

def Op.Valued : Op → Prop
  | .put _ value _ => value.getD [] ≠ []
  | .deleteKey _ | .deleteRange _ _ => True

variable {key : Bytes} {s : KvStore}

theorem KvMap.put_mem_opsWrites {rev : Int} {ops : List Op} {m : KvMap} {value : Option Bytes} {leaseID : Int64} :
    .put key value leaseID ∈ opsWrites rev ops m ↔ .put key value leaseID ∈ ops := by
  induction ops generalizing m with
  | nil => simp [opsWrites]
  | cons op rest ih =>
    rw [opsWrites,List.mem_append,ih,List.mem_cons]
    cases op <;> simp [opWrites]

theorem KvMap.opsWrites_valued {rev : Int} {ops : List Op} {m : KvMap} :
    (∀ w ∈ opsWrites rev ops m, w.Valued) ↔ ∀ op ∈ ops, op.Valued := by
  constructor
  · intro valued op member
    cases op with
    | put key value leaseID => exact valued _ (put_mem_opsWrites.mpr member)
    | deleteKey key => trivial
    | deleteRange key endKey => trivial
  · intro valued w member
    cases w with
    | put key value leaseID => exact valued _ (put_mem_opsWrites.mp member)
    | delete key => trivial

namespace KvStore

variable {s s' : KvStore}

theorem Orderly.txn_tells (orderly : s.Orderly) (legible : s.content.Legible) {ops : List Op} (named : ∀ op ∈ ops, op.Named) :
    (∀ e ∈ s.newRecords (s.txn ops), e.2.key ≠ []) ∧ (s.txn ops).kvIndex.records [] = [] ∧
    ((∀ e ∈ s.newRecords (s.txn ops), tellsKind e) ↔ ∀ op ∈ ops, op.Valued) := by
  obtain ⟨m,domain⟩ := s.content.exists_domain (s.currentRev.main + 1)
  have chain := (orderly.settled.txn domain ops).chain
  have positive : 0 < s.currentRev.main + 1 := by have := orderly.settled.nonneg; omega
  obtain ⟨log,entries,recorded,-⟩ := chain.appends positive orderly.stamped
  obtain ⟨changes,done⟩ := orderly.txnDone ops
  have same : log = s.newRecords (s.txn ops) := List.append_cancel_left (entries.symm.trans done.appended.entries)
  obtain ⟨keys,index⟩ := chain.named legible.index fun key value leaseID member =>
    named (.put key value leaseID) (KvMap.put_mem_opsWrites.mp member)
  obtain ⟨entries,tells⟩ := recorded_tells recorded keys
  rw [← same,tells,KvMap.opsWrites_valued]
  exact ⟨entries,index,Iff.rfl⟩

theorem Orderly.txn_legible (orderly : s.Orderly) (legible : s.content.Legible) {ops : List Op} (named : ∀ op ∈ ops, op.Named)
    (valued : ∀ op ∈ ops, op.Valued) : (s.txn ops).content.Legible := by
  obtain ⟨keys,index,tells⟩ := orderly.txn_tells legible named
  obtain ⟨changes,done⟩ := orderly.txnDone ops
  have entries := done.appended.entries
  have split : ∀ {bk e}, (s.txn ops).backend.buckets.kv.find? bk = some e →
      s.backend.buckets.kv.find? bk = some e ∨ (bk,e) ∈ s.newRecords (s.txn ops) := by
    intro bk e found
    have member := SortedMap.mem_entries.mpr found
    rw [entries,List.mem_append] at member
    exact member.imp_left SortedMap.mem_entries.mp
  refine ⟨index,fun bk e found => ?_,fun bk e found unmarked => ?_⟩
  · rcases split found with old | new
    · exact legible.named bk e old
    · exact keys _ new
  · rcases split found with old | new
    · exact legible.valued bk e old unmarked
    · have told := tells.mpr valued _ new
      rw [tellsKind,toKvEvent_kind,unmarked] at told
      exact fun empty => Bool.false_ne_true (told.mp ⟨keys _ new,empty⟩)

end KvStore

namespace Content.Legible

variable {s s' : KvStore}

section

variable (legible : s.content.Legible)

include legible

theorem aborted {ti : TreeIndex} (alike : ti.Alike s.kvIndex) :
    (KvStore.content { s with kvIndex := ti }).Legible :=
  ⟨(alike.records []).trans legible.index,legible.named,legible.valued⟩

theorem same (same : s.SameKv s') : s'.content.Legible := same.content.symm ▸ legible

theorem compact (rev : Int) : (s.compact rev).1.content.Legible := by
  rcases s.compact_eq rev with ⟨-,run⟩ | ⟨-,e,run⟩
  · rw [run]
    exact ⟨legible.index,legible.named,legible.valued⟩
  · rw [run]
    exact legible

theorem stepped {job : Job} {next : Option Job} (stepped : Job.Stepped job s s' next) :
    s'.content.Legible := by
  cases stepped with
  | clone | indexed | failed => exact legible
  | store => exact ⟨legible.index,legible.named,legible.valued⟩
  | visit at_ visited =>
    refine ⟨List.eq_nil_iff_forall_not_mem.mpr fun bk member => ?_,legible.named,legible.valued⟩
    have old := visited.records_subset member
    rw [show s.kvIndex.records [] = [] from legible.index] at old
    cases old
  | @batch retain start b next at_ pruned scheduled ended =>
    have kept : ∀ {bk e}, b.buckets.kv.find? bk = some e → s.backend.buckets.kv.find? bk = some e := by
      intro bk e found
      rcases pruned bk with same | ⟨gone,-⟩
      · rwa [← same]
      · rw [gone] at found
        cases found
    exact ⟨legible.index,fun bk e found => legible.named bk e (kept found),fun bk e found => legible.valued bk e (kept found)⟩

theorem restore (orderly : s.Orderly) : (KvStore.new s.backend).restore.1.content.Legible := by
  refine ⟨List.eq_nil_iff_forall_not_mem.mpr fun bk member => ?_,legible.named,legible.valued⟩
  obtain ⟨entry,found,empty⟩ := mem_recordsIn.mp (restoreIndex_records orderly.stamped member)
  exact legible.named bk entry found empty

end

end Content.Legible

/-! ### Commands -/

/-- The requests of the command pass their checks; the engine checks the operations of a transaction itself. -/
def KvRequest.Checked : KvRequest → Prop
  | .put r => r.check = .ok ()
  | .delete r => r.check = .ok ()
  | .txn _ => True

def TxnOp.valued : TxnOp → Bool
  | .put (some r) => r.value.getD [] ≠ []
  | _ => true

theorem TxnOp.call_valued {op : TxnOp} {call : Op} (is : op.call? = some call) : call.Valued ↔ op.valued = true := by
  rcases op with (_ | r) | (_ | r) | (_ | r) | _ <;> simp only [TxnOp.call?,Option.some.injEq,reduceCtorEq] at is
  · subst is
    simp [Op.Valued,TxnOp.valued]
  · subst is
    simp [Op.Valued,TxnOp.valued]

theorem TxnOp.valued_of_no_call (op : TxnOp) (none : op.call? = none) : op.valued = true := by
  rcases op with (_ | r) | (_ | r) | (_ | r) | _ <;> first | rfl | cases none

theorem TxnOp.call_named {op : TxnOp} {call : Op} (runs : op.runs s = true) (is : op.call? = some call) :
    call.Named := by
  rcases op with (_ | r) | (_ | r) | (_ | r) | _ <;> simp only [TxnOp.call?,Option.some.injEq,reduceCtorEq] at is
  · subst is
    intro empty
    have fails : TxnOp.check (.put (some r)) = .error (.txnPut .keyRequired) := by
      simp only [TxnOp.check,PutRequest.check,if_pos empty]
      rfl
    simp [TxnOp.runs,fails] at runs
  · subst is
    trivial

/-- If the command is a transaction whose operations all run, its puts carry values. -/
def KvRequest.Valued (s : KvStore) : KvRequest → Prop
  | .txn cmd => (∀ op ∈ Engine.branch s.newWriter cmd, op.runs s = true) →
      ∀ op ∈ Engine.branch s.newWriter cmd, op.valued = true
  | .put _ | .delete _ => True

theorem doRange_fetches {ti : TreeIndex} {b : Buckets} {curr compacted rev limit : Int} {endKey : Option Bytes}
    {result : RangeResult} (read : doRange ti b curr compacted rev key endKey limit = .ok result) :
    ∃ target key' endKey', result = fetchRange ti b target key' endKey' limit := by
  unfold doRange at read
  by_cases future : rev > curr
  · simp [future] at read
  · by_cases low : (if rev ≤ 0 then curr else rev) < compacted
    · simp [future,low] at read
    · simp only [future,low,if_false,Except.ok.injEq] at read
      exact ⟨_,_,_,read.symm⟩

instance : (cmd : KvRequest) → Decidable cmd.Checked
  | .put r => inferInstanceAs (Decidable (r.check = .ok ()))
  | .delete r => inferInstanceAs (Decidable (r.check = .ok ()))
  | .txn _ => isTrue trivial

instance (s : KvStore) : (cmd : KvRequest) → Decidable (cmd.Valued s)
  | .txn cmd => inferInstanceAs (Decidable ((∀ op ∈ Engine.branch s.newWriter cmd, op.runs s = true) →
      ∀ op ∈ Engine.branch s.newWriter cmd, op.valued = true))
  | .put _ | .delete _ => isTrue trivial

theorem KvStore.get_record {e : Entry} (found : s.newWriter.get key 0 = some e) :
    ∃ rev, s.backend.buckets.kv.find? ⟨rev,false⟩ = some e := by
  rw [newWriter_get] at found
  cases read : s.newWriter.range key none 0 1 with
  | error cause => simp [read,Except.toOption] at found
  | ok result =>
    rw [read] at found
    have member : e ∈ result.entries := List.mem_of_head? found
    obtain ⟨target,key',endKey',rfl⟩ := doRange_fetches read
    rw [fetchRange_eq] at member
    obtain ⟨record,listed,is⟩ := List.mem_filterMap.mp member
    obtain rfl : record = some e := is
    obtain ⟨live,-,is⟩ := List.mem_map.mp (mem_of_mem_cut listed)
    exact ⟨_,is⟩

theorem Engine.calls_valued (settled : s.Settled) (legible : s.content.Legible) {w : Writer} {lm lm' : LeaseManager}
    {cmd : KvRequest} (checked : cmd.Checked) {result : KvResult} (run : applyRequest s.newWriter lm cmd = ((w,lm'),.ok result)) :
    (∀ op ∈ calls s.newWriter cmd, op.Named) ∧ ((∀ op ∈ calls s.newWriter cmd, op.Valued) ↔ cmd.Valued s) := by
  cases cmd with
  | delete r => exact ⟨by simp [calls,Op.Named],by simp [calls,Op.Valued,KvRequest.Valued]⟩
  | put r =>
    have named : r.key ≠ [] := by
      intro empty
      simp [KvRequest.Checked,PutRequest.check,empty] at checked
    refine ⟨by simpa [calls,Op.Named] using named,iff_of_true ?_ trivial⟩
    have get : TxWriter.get s.newWriter r.key 0 = s.newWriter.get r.key 0 := rfl
    simp only [calls,get,List.mem_singleton,forall_eq,Op.Valued]
    by_cases ignores : r.ignoreValue = true
    · cases found : s.newWriter.get r.key 0 with
      | none =>
        rw [applyRequest,applyPut,get,found] at run
        simp [ignores,Except.map] at run
      | some prev =>
        obtain ⟨rev,record⟩ := KvStore.get_record found
        rw [if_pos ignores]
        exact legible.valued _ _ record rfl
    · rw [if_neg ignores]
      intro empty
      simp [KvRequest.Checked,PutRequest.check,named,empty,ignores] at checked
  | txn cmd =>
    obtain ⟨results,ran⟩ := applyRequest_txn_ran run
    have runs := (applyTxnOps_ok_iff (.new settled)).mp ⟨w,results,ran⟩
    have puts : ∀ call, call ∈ calls s.newWriter (.txn cmd) ↔ ∃ op ∈ branch s.newWriter cmd, op.call? = some call :=
      fun call => List.mem_filterMap
    refine ⟨fun call member => ?_,fun valued _ op member => ?_,fun valued call member => ?_⟩
    · obtain ⟨op,inside,is⟩ := (puts call).mp member
      exact TxnOp.call_named (runs op inside) is
    · cases is : op.call? with
      | none => exact op.valued_of_no_call is
      | some call => exact (TxnOp.call_valued is).mp (valued call ((puts call).mpr ⟨op,member,is⟩))
    · obtain ⟨op,inside,is⟩ := (puts call).mp member
      exact (TxnOp.call_valued is).mpr (valued runs op inside)

/-- The event of a change, and that of its record, is a deletion exactly if the record carries the mark. -/
def EventMatches (change : Entry) (record : KvBucketKey × Entry) : Prop :=
  ((toKvEvent change).kind = .delete ↔ record.1.tombstone = true) ∧ ((toKvEvent record.2).kind = .delete ↔ record.1.tombstone = true)

theorem eventMatches_iff {changes : List Entry} {records : List (KvBucketKey × Entry)}
    (same : records.map (·.2) = changes.map Entry.stored) :
    List.Forall₂ EventMatches changes records ↔ ∀ e ∈ records, tellsKind e := by
  induction records generalizing changes with
  | nil =>
    have none : changes = [] := List.map_eq_nil_iff.mp same.symm
    simp [none]
  | cons e rest ih =>
    cases changes with
    | nil => cases same
    | cons change others =>
      rw [List.map_cons,List.map_cons,List.cons.injEq] at same
      have kinds : (toKvEvent change).kind = .delete ↔ (toKvEvent e.2).kind = .delete := by
        rw [toKvEvent_kind,toKvEvent_kind,same.1]
        rfl
      rw [List.forall₂_cons,List.forall_mem_cons,ih same.2,EventMatches,kinds,and_self]
      exact Iff.rfl

theorem Engine.announces_match (orderly : s.Orderly) (legible : s.content.Legible) (lm : LeaseManager)
    {cmd : KvRequest} (checked : cmd.Checked) :
    ((∀ changes ∈ announces s lm cmd, List.Forall₂ EventMatches changes (s.newRecords (applyWrite s lm cmd).1.1)) ↔
      cmd.Valued s) ∧ (cmd.Valued s → (applyWrite s lm cmd).1.1.content.Legible) := by
  obtain ⟨opened,-⟩ := applyRequest_writer orderly.settled lm cmd
  cases run : applyRequest s.newWriter lm cmd with
  | mk state outcome =>
    obtain ⟨w,lm'⟩ := state
    rw [run] at opened
    cases outcome with
    | error e =>
      have silent : announces s lm cmd = [] := by rw [announces,run]
      have failed : applyWrite s lm cmd = ((w.abort,lm'),.error e) := by rw [applyWrite,run]
      obtain ⟨ti,left,alike⟩ := opened.abort
      have valued : cmd.Valued s := by
        cases cmd with
        | put r => trivial
        | delete r => trivial
        | txn cmd =>
          intro runs
          obtain ⟨w',results,ran⟩ := (applyTxnOps_ok_iff (.new orderly.settled)).mpr runs
          have chosen : (if evalCondition s.newWriter cmd.comparisons then cmd.success else cmd.failure) = branch s.newWriter cmd := rfl
          simp [applyRequest,applyTxn,chosen,ran,Except.map] at run
      rw [silent,failed]
      refine ⟨iff_of_true (by simp) valued,fun _ => ?_⟩
      rw [show w.abort = _ from left]
      exact legible.aborted alike
    | ok result =>
      obtain ⟨named,valued⟩ := calls_valued orderly.settled legible checked run
      have told : announces s lm cmd = [w.changes] := by rw [announces,run]
      have ended : (applyWrite s lm cmd).1.1 = s.txn (calls s.newWriter cmd) :=
        @applyWrite_eq_txn _ _ s lm cmd (result,headerRevision w) (by rw [applyWrite,run])
      obtain ⟨changes,done⟩ := orderly.txnDone (calls s.newWriter cmd)
      obtain rfl : w.changes = changes := by
        have announced := done.announced
        rw [KvStore.txnChanges,applyRequest_calls run] at announced
        exact Option.some.inj announced
      rw [told,ended]
      refine ⟨?_,fun holds => orderly.txn_legible legible named (valued.mpr holds)⟩
      rw [← valued,← (orderly.txn_tells legible named).2.2,← eventMatches_iff done.changes]
      simp

/-! ### Runs -/

theorem Log.data_of_request (log : Log) {request : Request} (asked : log.request? = some request) :
    log.data = some (.full request) := by
  unfold Log.request? at asked
  split at asked
  next data =>
    cases asked
    exact data
  next => cases asked

namespace Fsm

variable {f : Fsm}

/-- The state in which the command of an entry is executed. -/
def ready (f : Fsm) (log : Log) : Fsm := { f with store := f.store.updateInmemRaftMeta log.index log.term }

def Checked : Request → Prop
  | .kv cmd => cmd.Checked
  | .lease _ | .compaction _ | .ot _ => True

/-- The condition on transactions. -/
def PutsValues (f : Fsm) : Request → Prop
  | .kv cmd => cmd.Valued f.store
  | .lease _ | .compaction _ | .ot _ => True

/-- The condition on the command of an entry that is applied. -/
def Valued (f : Fsm) (log : Log) : Prop :=
  f.store.applyIndex < log.index → ∀ request ∈ log.request?, (f.ready log).PutsValues request

instance : (request : Request) → Decidable (Checked request)
  | .kv cmd => inferInstanceAs (Decidable cmd.Checked)
  | .lease _ | .compaction _ | .ot _ => isTrue trivial

instance (f : Fsm) : (request : Request) → Decidable (f.PutsValues request)
  | .kv cmd => inferInstanceAs (Decidable (cmd.Valued f.store))
  | .lease _ | .compaction _ | .ot _ => isTrue trivial

instance (f : Fsm) (log : Log) : Decidable (f.Valued log) :=
  inferInstanceAs (Decidable (f.store.applyIndex < log.index → ∀ request ∈ log.request?, (f.ready log).PutsValues request))

/-- The events of the changes that an entry commits have the kinds of the records. -/
def KindsMatch (f : Fsm) (env : Env) (log : Log) : Prop :=
  ∀ changes ∈ f.announces log, List.Forall₂ EventMatches changes (f.store.newRecords (f.apply env log).1.store)

theorem dispatch_legible (orderly : f.store.Orderly) (legible : f.store.content.Legible) (env : Env) {request : Request}
    (checked : Checked request) (valued : f.PutsValues request) :
    (f.dispatch env request).1.store.content.Legible := by
  cases request with
  | kv cmd => exact (Engine.announces_match orderly legible f.lm checked).2 valued
  | lease cmd =>
    obtain ⟨keys,-,same⟩ := applyLease_store orderly.settled env cmd
    refine (orderly.txn_legible legible (fun op member => ?_) fun op member => ?_).same same
    all_goals
      obtain ⟨key,-,rfl⟩ := List.mem_map.mp member
      trivial
  | compaction targetRev => exact legible.compact targetRev
  | ot cmd =>
    cases cmd with
    | writeAll blob => exact legible.same (.applyWriteAll _ _ _)
    | generateClusterKey key => exact legible.same (.applyGenerateClusterKey _ _ _)

theorem apply_kinds (orderly : f.store.Orderly) (legible : f.store.content.Legible) (env : Env) {log : Log}
    (checked : ∀ request ∈ log.request?, Checked request) :
    (f.KindsMatch env log ↔ f.Valued log) ∧ (f.Valued log → (f.apply env log).1.store.content.Legible) := by
  by_cases applied : ∃ request, f.store.applyIndex < log.index ∧ log.data = some (.full request)
  · obtain ⟨request,new,data⟩ := applied
    have asked : log.request? = some request := by rw [Log.request?,data]
    have readied := KvStore.SameKv.updateInmemRaftMeta f.store log.index log.term
    have orderly' := orderly.same readied
    have legible' := legible.same readied
    have after := apply_of_full env new data
    have passes := checked request asked
    have valued : f.Valued log ↔ (f.ready log).PutsValues request := by
      constructor
      · exact fun valued => valued new request asked
      · intro valued _ request' is
        rw [asked] at is
        cases is
        exact valued
    rw [valued]
    refine ⟨?_,fun holds => (dispatch_legible (f := f.ready log) orderly' legible' env passes holds).same after⟩
    have records : f.store.newRecords (f.apply env log).1.store = (f.ready log).store.newRecords (dispatch (f.ready log) env request).1.store := by
      have kv : (f.apply env log).1.store.backend.buckets.kv = (dispatch (f.ready log) env request).1.store.backend.buckets.kv :=
        congrArg Content.kv after.content
      rw [KvStore.newRecords,kv]
      rfl
    rw [KindsMatch,announces_of_full new data,records]
    cases request with
    | kv cmd => exact (Engine.announces_match orderly' legible' f.lm passes).1
    | lease cmd => exact iff_of_true (by simp [dispatchAnnounces]) trivial
    | compaction targetRev => exact iff_of_true (by simp [dispatchAnnounces]) trivial
    | ot cmd => exact iff_of_true (by simp [dispatchAnnounces]) trivial
  · obtain ⟨silent,same⟩ := skips env applied
    refine ⟨iff_of_true (by simp [KindsMatch,silent]) ?_,fun _ => by rw [same]; exact legible⟩
    intro new request asked
    exact absurd ⟨request,new,log.data_of_request asked⟩ applied

end Fsm

namespace Replica

def Checked : ReplicaEvent → Prop
  | .apply _ log => ∀ request ∈ log.request?, Fsm.Checked request
  | .advance _ | .restart _ => True

/-- A transaction that commits in this step writes no empty value. -/
def Valued (r : Replica) : ReplicaEvent → Prop
  | .apply _ log => r.fsm.Valued log
  | .advance _ | .restart _ => True

instance : (event : ReplicaEvent) → Decidable (Checked event)
  | .apply _ log => inferInstanceAs (Decidable (∀ request ∈ log.request?, Fsm.Checked request))
  | .advance _ | .restart _ => isTrue trivial

instance (r : Replica) : (event : ReplicaEvent) → Decidable (r.Valued event)
  | .apply _ log => inferInstanceAs (Decidable (r.fsm.Valued log))
  | .advance _ | .restart _ => isTrue trivial

/-- The events of the changes that the step commits have the kinds of the records. -/
def KindsMatch (r : Replica) : ReplicaEvent → Prop
  | .apply env log => r.fsm.KindsMatch env log
  | .advance _ | .restart _ => True

theorem step_legible {r : Replica} (orderly : r.fsm.store.Orderly) (legible : r.fsm.store.content.Legible) {event : ReplicaEvent}
    (checked : Checked event) (valued : r.Valued event) : (r.step event).fsm.store.content.Legible := by
  cases event with
  | apply env log => exact (Fsm.apply_kinds orderly legible env checked).2 valued
  | advance i =>
    change (r.sys.advance i).store.content.Legible
    rw [Sys.advance]
    split
    · exact legible
    next job at_ => exact legible.stepped (job.step_cases orderly.settled.before.valid)
  | restart now => exact ((legible.restore orderly).same (.restoreLeases now _)).same (.restoreOt _ _)

end Replica

/-- The kinds of the events tell the marks of the records in a run exactly if no transaction of the run puts an empty value. -/
theorem event_kinds_match_iff (opts : OtOptions) (nodeID : String) {events : List ReplicaEvent}
    (checked : ∀ event ∈ events, Replica.Checked event) :
    Runs.Along Replica.step Replica.KindsMatch (Replica.new opts nodeID) events ↔
      Runs.Along Replica.step Replica.Valued (Replica.new opts nodeID) events := by
  have empty : (Replica.new opts nodeID).fsm.store.content.Legible :=
    ⟨rfl,fun bk e found => (by cases found),fun bk e found => (by cases found)⟩
  have same : ∀ r : Replica, r.fsm.store.Orderly ∧ r.fsm.store.content.Legible → ∀ event ∈ events,
      (r.KindsMatch event ↔ r.Valued event) := by
    rintro r ⟨orderly,legible⟩ event member
    cases event with
    | apply env log => exact (Fsm.apply_kinds orderly legible env (checked _ member)).1
    | advance i => exact Iff.rfl
    | restart now => exact Iff.rfl
  refine Runs.along_congr (P := fun r : Replica => r.fsm.store.Orderly ∧ r.fsm.store.content.Legible)
    ⟨.new,empty⟩ same fun r reached event member matched => ?_
  exact ⟨r.step_orderly event reached.1,
    Replica.step_legible reached.1 reached.2 (checked event member) ((same r reached event member).mp matched)⟩

/-- A put that keeps its value, a transaction and a deletion. -/
theorem event_kinds_match_after_txn :
    let events : List ReplicaEvent :=
      [.apply (.plain 0) (.plain 1 (.kv (.put (.plain [97] [1] 0)))),
        .apply (.plain 0) (.plain 2 (.kv (.put ⟨[97],none,7,false,true,false⟩))),
        .apply (.plain 0) (.plain 3 (.kv (.txn ⟨[],[.put (some (.plain [98] [2] 0)),
          .delete (some ⟨[97],none,false⟩)],[]⟩)))]
    (∀ event ∈ events, Replica.Checked event) ∧
      Runs.Along Replica.step Replica.KindsMatch (Replica.new defaultOtOptions "a") events := by
  intro events
  have checked : ∀ event ∈ events, Replica.Checked event := by decide
  exact ⟨checked,(event_kinds_match_iff defaultOtOptions "a" checked).mpr (by decide)⟩

/-- A transaction puts a key and asks for the value to be kept: the record is no tombstone, and its event is a deletion. A
    later put that keeps the value does the same. -/
theorem event_kind_of_kept_value_is_delete :
    let put : Log := .plain 1 (.kv (.put (.plain [97] [1] 0)))
    let keep : PutRequest := ⟨[97],none,0,false,true,false⟩
    let txn : Log := .plain 2 (.kv (.txn ⟨[],[.put (some keep)],[]⟩))
    let again : Log := .plain 3 (.kv (.put keep))
    let f := (Replica.new defaultOtOptions "a").fsm
    let g := (f.apply (.plain 0) put).1
    let g' := (g.apply (.plain 0) txn).1
    keep.check = .ok () ∧ g.announces txn = [[⟨[97],none,1,2,2,0⟩]] ∧
      g.store.newRecords g'.store = [(⟨⟨2,0⟩,false⟩,⟨[97],some [],1,2,2,0⟩)] ∧
      (toKvEvent ⟨[97],none,1,2,2,0⟩).kind = .delete ∧ (toKvEvent ⟨[97],some [],1,2,2,0⟩).kind = .delete ∧
      g'.announces again = [[⟨[97],some [],1,3,3,0⟩]] ∧
      g'.store.newRecords (g'.apply (.plain 0) again).1.store = [(⟨⟨3,0⟩,false⟩,⟨[97],some [],1,3,3,0⟩)] := by
  decide

end Kave
