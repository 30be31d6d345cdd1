import Kave.Engine

/-! The engine over two writers. If the calls of the interfaces agree on related writers and attachments, so does every
    command. What the writers are is never looked at. -/

namespace Kave

open TxWriter LeaseAttacher

section

variable {W W' A A' : Type} [TxWriter W] [TxWriter W'] [LeaseAttacher A] [LeaseAttacher A']

/-- The calls of two writers agree while `R` relates them; reads at a revision agree if `ok` lets it through. -/
structure WritersAgree (ok : Int → Prop) (R : W → W' → Prop) : Prop where
  now : ok 0
  get : ∀ {w w'}, R w w' → ∀ key, get w key 0 = get w' key 0
  range : ∀ {w w'}, R w w' → ∀ key endKey rev limit, ok rev → range w key endKey rev limit = range w' key endKey rev limit
  put : ∀ {w w'}, R w w' → ∀ key value leaseID,
    R (put w key value leaseID).1 (put w' key value leaseID).1 ∧ (put w key value leaseID).2 = (put w' key value leaseID).2
  deleteRange : ∀ {w w'}, R w w' → ∀ key endKey,
    R (deleteRange w key endKey).1 (deleteRange w' key endKey).1 ∧ (deleteRange w key endKey).2 = (deleteRange w' key endKey).2
  startMain : ∀ {w w'}, R w w' → startMain w = startMain w'
  changes : ∀ {w w'}, R w w' → changes w = changes w'

structure AttachersAgree (S : A → A' → Prop) : Prop where
  attachKey : ∀ {a a'}, S a a' → ∀ id key, S (attachKey a id key) (attachKey a' id key)
  detachKey : ∀ {a a'}, S a a' → ∀ id key, S (detachKey a id key) (detachKey a' id key)

end

namespace Engine

/-! ### The revisions a transaction asks for -/

section

variable {W A : Type} [TxWriter W]

/-- A range operation asks for a revision that `ok` lets through. -/
def OpAsks (ok : Int → Prop) : CheckedOp → Prop
  | .range request => ok request.revision
  | _ => True

/-- So do all range operations that are reached. -/
def OpsAsk (ok : Int → Prop) : List TxnOp → W → Prop
  | [], _ => True
  | op :: rest, w =>
    match op.check with
    | .error _ => True
    | .ok op => OpAsks ok op ∧
      match applyTxnOp w op with
      | (_,.error _) => True
      | (w,.ok _) => OpsAsk ok rest w

def Asks (ok : Int → Prop) (w : W) : KvRequest → Prop
  | .txn cmd => OpsAsk ok (if evalCondition w cmd.comparisons then cmd.success else cmd.failure) w
  | _ => True

variable (ok : Int → Prop) [DecidablePred ok]

instance : (op : CheckedOp) → Decidable (OpAsks ok op)
  | .put _ => isTrue trivial
  | .delete _ => isTrue trivial
  | .range request => inferInstanceAs (Decidable (ok request.revision))

instance decidableOpsAsk : (ops : List TxnOp) → (w : W) → Decidable (OpsAsk ok ops w)
  | [], _ => isTrue trivial
  | op :: rest, w =>
    match checked : op.check with
    | .error _ => isTrue (by simp [OpsAsk, checked])
    | .ok op' =>
      match run : applyTxnOp w op' with
      | (_,.error _) => decidable_of_iff (OpAsks ok op') (by simp [OpsAsk, checked, run])
      | (w',.ok _) =>
        have := decidableOpsAsk rest w'
        decidable_of_iff (OpAsks ok op' ∧ OpsAsk ok rest w') (by simp [OpsAsk, checked, run])

instance (w : W) : (cmd : KvRequest) → Decidable (Asks ok w cmd)
  | .put _ => isTrue trivial
  | .delete _ => isTrue trivial
  | .txn cmd => inferInstanceAs (Decidable (OpsAsk ok (if evalCondition w cmd.comparisons then cmd.success else cmd.failure) w))

end

/-! ### Every command agrees -/

section

variable {W W' A A' : Type} [TxWriter W] [TxWriter W'] [LeaseAttacher A] [LeaseAttacher A']
variable {ok : Int → Prop} {R : W → W' → Prop} {S : A → A' → Prop}

variable {w' : W'} {w : W} {a : A} {a' : A'}

theorem applyPut_agrees (writers : WritersAgree ok R) (attachers : AttachersAgree S)
    (related : R w w') (attached : S a a') (cmd : PutRequest) :
    R (applyPut w a cmd).1.1 (applyPut w' a' cmd).1.1 ∧ S (applyPut w a cmd).1.2 (applyPut w' a' cmd).1.2 ∧
      (applyPut w a cmd).2 = (applyPut w' a' cmd).2 := by
  unfold applyPut
  rw [writers.get related cmd.key]
  generalize TxWriter.get w' cmd.key 0 = prev
  by_cases missing : prev = none ∧ (cmd.ignoreLease ∨ cmd.ignoreValue)
  · simp only [if_pos missing]
    exact ⟨related,attached,trivial⟩
  · simp only [if_neg missing]
    generalize (if cmd.ignoreValue = true then prev.bind (·.value) else cmd.value) = value
    generalize (if cmd.ignoreLease = true then (prev.map (·.leaseID)).getD 0 else cmd.leaseID) = leaseID
    obtain ⟨after,same⟩ := writers.put related cmd.key value leaseID
    generalize TxWriter.put w cmd.key value leaseID = run at after same ⊢
    generalize TxWriter.put w' cmd.key value leaseID = run' at after same ⊢
    obtain ⟨w₁,e⟩ := run
    obtain ⟨w₁',e'⟩ := run'
    obtain rfl : e = e' := same
    cases e with
    | some e => exact ⟨after,attached,rfl⟩
    | none =>
      refine ⟨after,?_,rfl⟩
      have detached : S (if (prev.map (·.leaseID)).getD 0 ≠ 0 ∧ (prev.map (·.leaseID)).getD 0 ≠ leaseID then
            LeaseAttacher.detachKey a ((prev.map (·.leaseID)).getD 0) cmd.key else a)
          (if (prev.map (·.leaseID)).getD 0 ≠ 0 ∧ (prev.map (·.leaseID)).getD 0 ≠ leaseID then
            LeaseAttacher.detachKey a' ((prev.map (·.leaseID)).getD 0) cmd.key else a') := by
        split
        · exact attachers.detachKey attached _ _
        · exact attached
      by_cases leased : leaseID ≠ 0
      · simp only [if_pos leased]
        exact attachers.attachKey detached _ _
      · simp only [if_neg leased]
        exact detached

theorem prevEntries_eq (writers : WritersAgree ok R) (related : R w w') (cmd : DeleteRequest) :
    prevEntries w cmd = prevEntries w' cmd := by
  unfold prevEntries
  rw [writers.range related _ _ _ _ writers.now]

theorem detachAll_agrees (attachers : AttachersAgree S) (entries : List Entry) (attached : S a a') :
    S (detachAll a entries) (detachAll a' entries) := by
  unfold detachAll
  induction entries generalizing a a' with
  | nil => exact attached
  | cons e rest ih =>
    rw [List.foldl_cons,List.foldl_cons]
    apply ih
    split
    · exact attachers.detachKey attached _ _
    · exact attached

section

variable (writers : WritersAgree ok R)

include writers

theorem applyDelete_agrees (attachers : AttachersAgree S)
    (related : R w w') (attached : S a a') (cmd : DeleteRequest) :
    R (applyDelete w a cmd).1.1 (applyDelete w' a' cmd).1.1 ∧ S (applyDelete w a cmd).1.2 (applyDelete w' a' cmd).1.2 ∧
      (applyDelete w a cmd).2 = (applyDelete w' a' cmd).2 := by
  unfold applyDelete
  rw [prevEntries_eq writers related cmd]
  cases prevEntries w' cmd with
  | error e => exact ⟨related,attached,rfl⟩
  | ok prevs =>
    obtain ⟨after,same⟩ := writers.deleteRange related cmd.key cmd.endKey
    simp only
    generalize TxWriter.deleteRange w cmd.key cmd.endKey = run at after same ⊢
    generalize TxWriter.deleteRange w' cmd.key cmd.endKey = run' at after same ⊢
    obtain ⟨w₁,e⟩ := run
    obtain ⟨w₁',e'⟩ := run'
    obtain rfl : e = e' := same
    cases e with
    | some e => exact ⟨after,attached,rfl⟩
    | none =>
      refine ⟨after,detachAll_agrees attachers prevs attached,?_⟩
      simp only
      rw [writers.changes after]

theorem evalCondition_eq (related : R w w') (cmps : List Comparison) :
    evalCondition w cmps = evalCondition w' cmps := by
  unfold evalCondition
  congr 1
  funext cmp
  rw [writers.get related]

theorem applyTxnOp_agrees (related : R w w') {op : CheckedOp}
    (asks : OpAsks ok op) :
    R (applyTxnOp w op).1 (applyTxnOp w' op).1 ∧ (applyTxnOp w op).2 = (applyTxnOp w' op).2 := by
  unfold applyTxnOp
  cases op with
  | put request =>
    obtain ⟨after,same⟩ := writers.put related request.key request.value request.leaseID
    simp only
    rw [writers.get related]
    generalize TxWriter.put w request.key request.value request.leaseID = run at after same ⊢
    generalize TxWriter.put w' request.key request.value request.leaseID = run' at after same ⊢
    obtain ⟨w₁,e⟩ := run
    obtain ⟨w₁',e'⟩ := run'
    obtain rfl : e = e' := same
    cases e with
    | some e => exact ⟨after,rfl⟩
    | none => exact ⟨after,rfl⟩
  | delete request =>
    simp only
    rw [prevEntries_eq writers related request]
    cases prevEntries w' request with
    | error e => exact ⟨related,rfl⟩
    | ok prevs =>
      obtain ⟨after,same⟩ := writers.deleteRange related request.key request.endKey
      simp only
      generalize TxWriter.deleteRange w request.key request.endKey = run at after same ⊢
      generalize TxWriter.deleteRange w' request.key request.endKey = run' at after same ⊢
      obtain ⟨w₁,e⟩ := run
      obtain ⟨w₁',e'⟩ := run'
      obtain rfl : e = e' := same
      cases e with
      | some e => exact ⟨after,rfl⟩
      | none =>
        refine ⟨after,?_⟩
        simp only
        rw [writers.changes after]
  | range request =>
    simp only
    rw [writers.range related _ _ _ _ asks]
    cases TxWriter.range w' request.key (if request.isPrefix = true then prefixEnd request.key else request.endKey)
      request.revision request.limit with
    | error e => exact ⟨related,rfl⟩
    | ok result => exact ⟨related,rfl⟩

theorem applyTxnOps_agrees {ops : List TxnOp} (related : R w w')
    (asks : OpsAsk ok ops w) :
    R (applyTxnOps ops w).1 (applyTxnOps ops w').1 ∧ (applyTxnOps ops w).2 = (applyTxnOps ops w').2 := by
  induction ops generalizing w w' with
  | nil => exact ⟨related,rfl⟩
  | cons op rest ih =>
    rw [applyTxnOps,applyTxnOps]
    rw [OpsAsk] at asks
    cases checked : op.check with
    | error e => exact ⟨related,rfl⟩
    | ok op =>
      rw [checked] at asks
      obtain ⟨mine,others⟩ := asks
      obtain ⟨after,same⟩ := applyTxnOp_agrees writers related mine
      simp only
      generalize applyTxnOp w op = run at after same others ⊢
      generalize applyTxnOp w' op = run' at after same ⊢
      obtain ⟨w₁,result⟩ := run
      obtain ⟨w₁',result'⟩ := run'
      obtain rfl : result = result' := same
      cases result with
      | error e => exact ⟨after,rfl⟩
      | ok result =>
        obtain ⟨final,sameRest⟩ := ih after others
        simp only
        generalize applyTxnOps rest w₁ = run at final sameRest ⊢
        generalize applyTxnOps rest w₁' = run' at final sameRest ⊢
        obtain ⟨w₂,results⟩ := run
        obtain ⟨w₂',results'⟩ := run'
        obtain rfl : results = results' := sameRest
        cases results with
        | error e => exact ⟨final,rfl⟩
        | ok results => exact ⟨final,rfl⟩

/-- Every command agrees: the writers and the attachments stay related, and the results are equal. -/
theorem applyRequest_agrees (attachers : AttachersAgree S)
    (related : R w w') (attached : S a a') {cmd : KvRequest} (asks : Asks ok w cmd) :
    R (applyRequest w a cmd).1.1 (applyRequest w' a' cmd).1.1 ∧ S (applyRequest w a cmd).1.2 (applyRequest w' a' cmd).1.2 ∧
      (applyRequest w a cmd).2 = (applyRequest w' a' cmd).2 := by
  cases cmd with
  | put cmd =>
    obtain ⟨after,attached',same⟩ := applyPut_agrees writers attachers related attached cmd
    exact ⟨after,attached',congrArg (Except.map KvResult.put) same⟩
  | delete cmd =>
    obtain ⟨after,attached',same⟩ := applyDelete_agrees writers attachers related attached cmd
    exact ⟨after,attached',congrArg (Except.map KvResult.delete) same⟩
  | txn cmd =>
    obtain ⟨after,same⟩ := applyTxnOps_agrees writers related asks
    change R (applyTxn w cmd).1 (applyTxn w' cmd).1 ∧ S a a' ∧
      (applyTxn w cmd).2.map KvResult.txn = (applyTxn w' cmd).2.map KvResult.txn
    unfold applyTxn
    rw [← evalCondition_eq writers related]
    simp only
    generalize applyTxnOps (if evalCondition w cmd.comparisons = true then cmd.success else cmd.failure) w = run at after same ⊢
    generalize applyTxnOps (if evalCondition w cmd.comparisons = true then cmd.success else cmd.failure) w' = run' at after same ⊢
    obtain ⟨w₁,results⟩ := run
    obtain ⟨w₁',results'⟩ := run'
    obtain rfl : results = results' := same
    cases results with
    | error e => exact ⟨after,attached,rfl⟩
    | ok results => exact ⟨after,attached,rfl⟩

end

theorem opsAsk_of_forall {ok : Int → Prop} (all : ∀ rev, ok rev) (ops : List TxnOp) (w : W) : OpsAsk ok ops w := by
  induction ops generalizing w with
  | nil => trivial
  | cons op rest ih =>
    rw [OpsAsk]
    split
    · trivial
    · constructor
      · unfold OpAsks
        split
        · exact all _
        · trivial
      · split
        · trivial
        · exact ih _

theorem asks_of_forall {ok : Int → Prop} (all : ∀ rev, ok rev) (w : W) (cmd : KvRequest) : Asks ok w cmd := by
  cases cmd with
  | put cmd => trivial
  | delete cmd => trivial
  | txn cmd => exact opsAsk_of_forall all _ w

theorem applyRequest_invariant {P : W → Prop} {Q : A → Prop} (put : ∀ w key value leaseID, P w → P (TxWriter.put w key value leaseID).1)
    (deleteRange : ∀ w key endKey, P w → P (TxWriter.deleteRange w key endKey).1)
    (attachKey : ∀ a id key, Q a → Q (LeaseAttacher.attachKey a id key))
    (detachKey : ∀ a id key, Q a → Q (LeaseAttacher.detachKey a id key)) (start : P w) (attached : Q a)
    (cmd : KvRequest) : P (applyRequest w a cmd).1.1 ∧ Q (applyRequest w a cmd).1.2 := by
  have writers : WritersAgree (fun _ => True) fun w w' : W => w = w' ∧ P w := by
    constructor
    · trivial
    · rintro w _ ⟨rfl,-⟩ key
      rfl
    · rintro w _ ⟨rfl,-⟩ key endKey rev limit -
      rfl
    · rintro w _ ⟨rfl,holds⟩ key value leaseID
      exact ⟨⟨rfl,put w key value leaseID holds⟩,rfl⟩
    · rintro w _ ⟨rfl,holds⟩ key endKey
      exact ⟨⟨rfl,deleteRange w key endKey holds⟩,rfl⟩
    · rintro w _ ⟨rfl,-⟩
      rfl
    · rintro w _ ⟨rfl,-⟩
      rfl
  have attachers : AttachersAgree fun a a' : A => a = a' ∧ Q a := by
    constructor
    · rintro a _ ⟨rfl,holds⟩ id key
      exact ⟨rfl,attachKey a id key holds⟩
    · rintro a _ ⟨rfl,holds⟩ id key
      exact ⟨rfl,detachKey a id key holds⟩
  obtain ⟨first,second,-⟩ :=
    applyRequest_agrees writers attachers ⟨rfl,start⟩ ⟨rfl,attached⟩ (asks_of_forall (fun _ => trivial) w cmd)
  exact ⟨first.2,second.2⟩

theorem headerRevision_eq (writers : WritersAgree ok R) (related : R w w') :
    headerRevision w = headerRevision w' := by
  unfold headerRevision
  rw [writers.changes related,writers.startMain related]

end

end Engine

end Kave
