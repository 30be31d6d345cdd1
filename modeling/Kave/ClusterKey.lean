import Kave.Command
import Kave.Runs
import Kave.Token

/-! The codec of a replica and the cluster key it has stored. The codec is made anew by every command that brings a key, also by
    one that is refused because a key is stored already, and by every restore. -/

namespace Kave

open Sealing

/-- The transfer part of a replica: its manager and the store it writes to. -/
structure OtNode where
  om : OTManager
  store : KvStore

inductive OtEvent
  | apply (cmd : OtRequest)
  /-- `Restore` of the manager that runs. -/
  | restore
  /-- `Restore` of a new manager. -/
  | restart
deriving DecidableEq, Repr

namespace OtNode

def new (opts : OtOptions) : OtNode := ⟨.new opts,.new Backend.empty⟩

def apply (n : OtNode) : OtRequest → OtNode
  | .writeAll blob => ⟨n.om,(n.om.applyWriteAll n.store blob).1⟩
  | .generateClusterKey key =>
    let run := n.om.applyGenerateClusterKey n.store key
    ⟨run.1.1,run.1.2⟩

def restoreWith (om : OTManager) (s : KvStore) : OtNode :=
  let run := om.restore s
  ⟨run.1.1,run.1.2⟩

def step (n : OtNode) : OtEvent → OtNode
  | .apply cmd => n.apply cmd
  | .restore => restoreWith n.om n.store
  | .restart => restoreWith (.new n.om.opts) n.store

def run (n : OtNode) (events : List OtEvent) : OtNode := events.foldl step n

def stored (n : OtNode) : Option Bytes := otValue n.store.backend.buckets.ot.clusterKey

/-- The codec in use is the one made of the stored key, and there is none as long as no key is stored. -/
structure Keyed (n : OtNode) : Prop where
  built : ∀ key, n.stored = some key → ∃ codec, newTokenCodec (some key) n.om.opts.tokenTTL = .ok codec ∧ n.om.codec = some codec
  unset : n.stored = none → n.om.codec = none

/-- A command that brings a key although one is stored brings that key, or one that no codec can be made of. -/
def Repeats (n : OtNode) : OtEvent → Prop
  | .apply (.generateClusterKey key) => ∀ old ∈ n.stored, key = old ∨ key.length ≠ clusterKeySize
  | .apply (.writeAll _) | .restore | .restart => True

instance decidableRepeats (n : OtNode) : (event : OtEvent) → Decidable (n.Repeats event)
  | .apply (.generateClusterKey key) => inferInstanceAs (Decidable (∀ old ∈ n.stored, key = old ∨ key.length ≠ clusterKeySize))
  | .apply (.writeAll _) | .restore | .restart => inferInstanceAs (Decidable True)

end OtNode

/-! ### Codecs -/

theorem newTokenCodec_some_iff {key : Bytes} {ttl : Int} {codec : TokenCodec} :
    newTokenCodec (some key) ttl = .ok codec ↔
      key.length = clusterKeySize ∧ codec = ⟨key,if ttl ≤ 0 ∨ ttl > maxTokenTTL then defaultTokenTTL else ttl⟩ := by
  simp only [newTokenCodec,Option.getD_some]
  by_cases sized : key.length = clusterKeySize
  · rw [if_neg (not_not.mpr sized)]
    simp [sized,eq_comm]
  · rw [if_pos sized]
    simp [sized]

theorem newTokenCodec_none (ttl : Int) : newTokenCodec none ttl = .error .invalidClusterKeySize := rfl

theorem newTokenCodec_of_length {key : Bytes} (sized : key.length = clusterKeySize) (ttl : Int) :
    ∃ codec, newTokenCodec (some key) ttl = .ok codec := ⟨_,newTokenCodec_some_iff.mpr ⟨sized,rfl⟩⟩

theorem newTokenCodec_of_length_ne {key : Bytes} (sized : key.length ≠ clusterKeySize) (ttl : Int) :
    newTokenCodec (some key) ttl = .error .invalidClusterKeySize := if_pos sized

namespace OtNode

variable {n : OtNode} {key old : Bytes} {event : OtEvent}

/-! ### What the steps do to key and codec -/

theorem apply_writeAll (n : OtNode) (blob : Option Bytes) :
    (n.apply (.writeAll blob)).om = n.om ∧ (n.apply (.writeAll blob)).stored = n.stored := by
  refine ⟨rfl,?_⟩
  change otValue (n.om.applyWriteAll n.store blob).1.backend.buckets.ot.clusterKey = _
  rw [OTManager.applyWriteAll]
  split
  · rfl
  · split <;> rfl

theorem generated_om (n : OtNode) (key : Bytes) : (n.apply (.generateClusterKey key)).om =
    ⟨n.om.opts,(newTokenCodec (some key) n.om.opts.tokenTTL).toOption.or n.om.codec⟩ := by
  change (n.om.applyGenerateClusterKey n.store key).1.1 = _
  rw [OTManager.applyGenerateClusterKey,OTManager.initTokenCodec]
  cases newTokenCodec (some key) n.om.opts.tokenTTL <;> split <;> rfl

theorem generated_stored (n : OtNode) (key : Bytes) : (n.apply (.generateClusterKey key)).stored =
    n.stored.or (otValue (some key)) := by
  change otValue (n.om.applyGenerateClusterKey n.store key).1.2.backend.buckets.ot.clusterKey = _
  rw [OTManager.applyGenerateClusterKey]
  cases is : n.stored with
  | none =>
    rw [show otValue n.store.backend.buckets.ot.clusterKey = none from is]
    cases n.om.initTokenCodec key <;> rfl
  | some old =>
    rw [show otValue n.store.backend.buckets.ot.clusterKey = some old from is]
    cases n.om.initTokenCodec key <;> exact is

theorem restoreWith_om (om : OTManager) (s : KvStore) : (restoreWith om s).om =
    ⟨om.opts,(newTokenCodec (otValue s.backend.buckets.ot.clusterKey) om.opts.tokenTTL).toOption.or om.codec⟩ := by
  change (om.restore s).1.1 = _
  rw [OTManager.restore]
  cases newTokenCodec (otValue s.backend.buckets.ot.clusterKey) om.opts.tokenTTL with
  | error e => rfl
  | ok codec =>
    simp only
    split <;> rfl

theorem restoreWith_stored (om : OTManager) (s : KvStore) :
    (restoreWith om s).stored = otValue s.backend.buckets.ot.clusterKey := by
  change otValue (om.restore s).1.2.backend.buckets.ot.clusterKey = _
  rw [OTManager.restore]
  cases newTokenCodec (otValue s.backend.buckets.ot.clusterKey) om.opts.tokenTTL with
  | error e => rfl
  | ok codec =>
    simp only
    split <;> rfl

theorem step_opts (n : OtNode) (event : OtEvent) : (n.step event).om.opts = n.om.opts := by
  cases event with
  | apply cmd =>
    cases cmd with
    | writeAll blob => rfl
    | generateClusterKey key =>
      change (n.apply (.generateClusterKey key)).om.opts = _
      rw [generated_om]
  | restore =>
    change (restoreWith n.om n.store).om.opts = _
    rw [restoreWith_om]
  | restart =>
    change (restoreWith _ n.store).om.opts = _
    rw [restoreWith_om]
    rfl

/-! ### One step -/

theorem Keyed.of_built (key : Bytes) (codec : TokenCodec) (is : n.stored = some key) (made : newTokenCodec (some key) n.om.opts.tokenTTL = .ok codec)
    (used : n.om.codec = some codec) : n.Keyed where
  built k here := by
    rw [is] at here
    cases here
    exact ⟨codec,made,used⟩
  unset none := by
    rw [is] at none
    cases none

theorem Keyed.restoreWith (keyed : n.Keyed) {om : OTManager} (opts : om.opts = n.om.opts) (none_or : om.codec = none ∨ om = n.om) :
    (restoreWith om n.store).Keyed := by
  have same := restoreWith_stored om n.store
  change _ = n.stored at same
  cases is : n.stored with
  | none =>
    refine ⟨fun key here => ?_,fun _ => ?_⟩
    · rw [same,is] at here
      cases here
    · have unset : om.codec = none := none_or.elim id fun eq => eq ▸ keyed.unset is
      rw [restoreWith_om]
      change Option.or (newTokenCodec n.stored om.opts.tokenTTL).toOption om.codec = none
      rw [is,newTokenCodec_none,unset]
      rfl
  | some key =>
    obtain ⟨codec,made,-⟩ := keyed.built key is
    rw [← opts] at made
    refine .of_built key codec (same.trans is) ?_ ?_
    · rw [restoreWith_om]
      exact made
    · rw [restoreWith_om]
      change Option.or (newTokenCodec n.stored om.opts.tokenTTL).toOption om.codec = _
      rw [is,made]
      rfl

theorem keyed_generate_first (none : n.stored = none) (sized : key.length = clusterKeySize) :
    (n.apply (.generateClusterKey key)).Keyed := by
  obtain ⟨codec,made⟩ := newTokenCodec_of_length sized n.om.opts.tokenTTL
  have full : key ≠ [] := by
    rintro rfl
    cases sized
  refine .of_built key codec ?_ ?_ ?_
  · rw [generated_stored,none]
    simp [otValue,full]
  · rw [generated_om]
    exact made
  · rw [generated_om,made]
    rfl

/-- A key that comes later takes the codec away from the stored one, unless it is that key or no codec can be made of it. -/
theorem Keyed.generate_again_iff (keyed : n.Keyed) (is : n.stored = some old) :
    (n.apply (.generateClusterKey key)).Keyed ↔ key = old ∨ key.length ≠ clusterKeySize := by
  have kept : (n.apply (.generateClusterKey key)).stored = some old := by
    rw [generated_stored,is]
    rfl
  obtain ⟨codec,made,used⟩ := keyed.built old is
  by_cases sized : key.length = clusterKeySize
  · obtain ⟨codec',made'⟩ := newTokenCodec_of_length sized n.om.opts.tokenTTL
    have now : (n.apply (.generateClusterKey key)).om = ⟨n.om.opts,some codec'⟩ := by
      rw [generated_om,made']
      rfl
    constructor
    · intro after
      obtain ⟨codec'',made'',used''⟩ := after.built old kept
      rw [now] at made'' used''
      cases used''
      rw [newTokenCodec_some_iff] at made' made''
      have same := made'.2.symm.trans made''.2
      exact Or.inl (congrArg TokenCodec.clusterKey same)
    · rintro (rfl | wrong)
      · refine .of_built _ codec' kept ?_ ?_ <;> rw [now]
        exact made'
      · exact absurd sized wrong
  · refine iff_of_true (.of_built _ codec kept ?_ ?_) (Or.inr sized) <;>
      rw [generated_om,newTokenCodec_of_length_ne sized]
    · exact made
    · exact used

theorem Keyed.step (keyed : n.Keyed) (repeats : n.Repeats event)
    (sized : ∀ key, event = .apply (.generateClusterKey key) → n.stored = none → key.length = clusterKeySize) :
    (n.step event).Keyed := by
  cases event with
  | apply cmd =>
    cases cmd with
    | writeAll blob =>
      obtain ⟨om,stored⟩ := n.apply_writeAll blob
      change (n.apply (.writeAll blob)).Keyed
      refine ⟨fun key => ?_,?_⟩ <;> rw [stored,om]
      · exact keyed.built key
      · exact keyed.unset
    | generateClusterKey key =>
      cases is : n.stored with
      | none => exact keyed_generate_first is (sized key rfl is)
      | some old => exact (keyed.generate_again_iff is).mpr (repeats old is)
  | restore => exact keyed.restoreWith rfl (Or.inr rfl)
  | restart => exact keyed.restoreWith rfl (Or.inl rfl)

/-! ### Runs -/

def commands (events : List OtEvent) : List OtRequest :=
  events.filterMap fun
    | .apply cmd => some cmd
    | .restore | .restart => none

/-- The key of the first command that brings one. -/
def firstKey (cmds : List OtRequest) : Option Bytes :=
  cmds.findSome? fun
    | .generateClusterKey key => some key
    | .writeAll _ => none

theorem Keyed.new (opts : OtOptions) : (OtNode.new opts).Keyed := ⟨fun _ is => (by cases is),fun _ => rfl⟩

theorem step_stored (n : OtNode) (event : OtEvent) :
    (n.step event).stored = n.stored.or ((firstKey (commands [event])).bind fun key => otValue (some key)) := by
  cases event with
  | apply cmd =>
    cases cmd with
    | writeAll blob => exact (n.apply_writeAll blob).2.trans (Option.or_none).symm
    | generateClusterKey key => exact n.generated_stored key
  | restore => exact (restoreWith_stored _ _).trans (Option.or_none).symm
  | restart => exact (restoreWith_stored _ _).trans (Option.or_none).symm

theorem firstKey_append (a b : List OtRequest) : firstKey (a ++ b) = (firstKey a).or (firstKey b) := List.findSome?_append

theorem run_keyed {events : List OtEvent} (keyed : n.Keyed)
    (sized : n.stored = none → ∀ key ∈ firstKey (commands events), key.length = clusterKeySize)
    (repeats : Runs.Along step Repeats n events) :
    (n.run events).Keyed ∧ (n.run events).stored = n.stored.or (firstKey (commands events)) ∧ (n.run events).om.opts = n.om.opts := by
  induction events generalizing n with
  | nil => exact ⟨keyed,(Option.or_none).symm,rfl⟩
  | cons event rest ih =>
    have split : firstKey (commands (event :: rest)) = (firstKey (commands [event])).or (firstKey (commands rest)) := by
      rw [← firstKey_append,commands,commands,commands,← List.filterMap_append]
      rfl
    have here : n.stored = none → ∀ key ∈ firstKey (commands [event]), key.length = clusterKeySize := by
      intro none key is
      refine sized none key ?_
      rw [split,Option.mem_def.mp is]
      rfl
    have now : (n.step event).stored = n.stored.or (firstKey (commands [event])) := by
      rw [step_stored]
      cases is : n.stored with
      | some old => rfl
      | none =>
        cases first : firstKey (commands [event]) with
        | none => rfl
        | some key =>
          have full : key ≠ [] := by
            rintro rfl
            cases here is [] first
          simp [otValue,full]
    have later := ih (n := n.step event) (keyed.step repeats.1 ?_) ?_ repeats.2
    · refine ⟨later.1,?_,later.2.2.trans (n.step_opts event)⟩
      rw [split,← Option.or_assoc,← now]
      exact later.2.1
    · rintro key rfl none
      exact here none key rfl
    · intro none key is
      rw [now] at none
      obtain ⟨before,first⟩ := Option.or_eq_none_iff.mp none
      refine sized before key ?_
      rw [split,first]
      exact is

theorem firstKey_of_shared {cmds log : List OtRequest} (shared : cmds <+: log) {key : Bytes} (first : firstKey cmds = some key) :
    firstKey log = some key := by
  obtain ⟨rest,rfl⟩ := shared
  rw [firstKey_append,first]
  rfl

/-- On replicas of one log, each with restores and restarts of its own, every codec is the one made of the stored key as long as
    later keys are the stored one or of the wrong size, and what one replica has sealed the others open until it expires. -/
theorem codec_is_of_stored_key (gcm : Gcm) (log : List OtRequest) (sized : ∀ key ∈ firstKey log, key.length = clusterKeySize)
    (opts opts' : OtOptions) (events events' : List OtEvent) (shared : commands events <+: log) (shared' : commands events' <+: log)
    (repeats : Runs.Along step Repeats (new opts) events) (repeats' : Runs.Along step Repeats (new opts') events') :
    let n := (new opts).run events
    let n' := (new opts').run events'
    (∀ key, n.stored = some key → ∃ codec, newTokenCodec (some key) opts.tokenTTL = .ok codec ∧ n.om.codec = some codec) ∧
      ∀ tc, n.om.codec = some tc → n'.stored ≠ none → ∃ tc', n'.om.codec = some tc' ∧
        ∀ nonce now now' scalar token, tc.sealScalar gcm nonce now scalar = .ok token →
          now'.toInt - now.toInt ≤ tc'.maxTTL * 1000000000 → tc'.openToken gcm now' token = .ok scalar := by
  intro n n'
  obtain ⟨keyed,stored,same⟩ := run_keyed (.new opts) (fun _ key is => sized key (firstKey_of_shared shared is)) repeats
  obtain ⟨keyed',stored',-⟩ := run_keyed (.new opts') (fun _ key is => sized key (firstKey_of_shared shared' is)) repeats'
  change n.stored = none.or _ at stored
  change n'.stored = none.or _ at stored'
  rw [Option.none_or] at stored stored'
  refine ⟨fun key is => ?_,fun tc used known => ?_⟩
  · have built := keyed.built key is
    rw [same] at built
    exact built
  · -- both have the first key of the log
    obtain ⟨key',is'⟩ := Option.ne_none_iff_exists'.mp known
    cases is : n.stored with
    | none =>
      have unset := keyed.unset is
      change n.om.codec = none at unset
      rw [unset] at used
      cases used
    | some key =>
      have equal : key = key' := by
        have first := firstKey_of_shared shared (stored.symm.trans is)
        rw [firstKey_of_shared shared' (stored'.symm.trans is')] at first
        exact (Option.some.inj first).symm
      obtain ⟨codec,made,used₁⟩ := keyed.built key is
      obtain ⟨tc',made',used'⟩ := keyed'.built key' is'
      cases Option.some.inj (used.symm.trans used₁)
      refine ⟨tc',used',fun nonce now now' scalar token run fresh => TokenCodec.openToken_sealScalar ?_ run fresh⟩
      rw [(newTokenCodec_some_iff.mp made').2, (newTokenCodec_some_iff.mp made).2, equal]

def keyA : Bytes := List.replicate 32 1

def keyB : Bytes := List.replicate 32 2

/-- A key that comes twice, and a restart between. -/
theorem codec_is_of_stored_key_twice :
    ∃ tc tc', ((new defaultOtOptions).run [.apply (.generateClusterKey keyA),.apply (.generateClusterKey keyA)]).om.codec = some tc ∧
      ((new defaultOtOptions).run [.apply (.generateClusterKey keyA),.restart]).om.codec = some tc' ∧
      ∀ nonce now now' scalar token, tc.sealScalar .tagged nonce now scalar = .ok token →
          now'.toInt - now.toInt ≤ tc'.maxTTL * 1000000000 → tc'.openToken .tagged now' token = .ok scalar := by
  have both := codec_is_of_stored_key .tagged [.generateClusterKey keyA,.generateClusterKey keyA] (by decide) defaultOtOptions
    defaultOtOptions [.apply (.generateClusterKey keyA),.apply (.generateClusterKey keyA)] [.apply (.generateClusterKey keyA),.restart]
    (by decide) (by decide) (by decide) (by decide)
  obtain ⟨codec,-,used⟩ := both.1 keyA (by decide)
  obtain ⟨tc',used',opens⟩ := both.2 codec used (by decide)
  exact ⟨codec,tc',used,used',opens⟩

/-- The second key is refused, yet the codec is made of it. A replica that restarts has the codec of the stored key again, and does
    not open what the other one seals. -/
theorem codec_is_of_refused_key :
    let n := (new defaultOtOptions).run [.apply (.generateClusterKey keyA),.apply (.generateClusterKey keyB)]
    let n' := (new defaultOtOptions).run [.apply (.generateClusterKey keyA),.apply (.generateClusterKey keyB),.restart]
    n.stored = some keyA ∧ n.om.codec = some ⟨keyB,30⟩ ∧ n'.om.codec = some ⟨keyA,30⟩ ∧
      ∃ token, TokenCodec.sealScalar ⟨keyB,30⟩ .tagged Nonce.zero 0 (List.replicate 32 7) = .ok token ∧
        TokenCodec.openToken ⟨keyA,30⟩ .tagged 0 token = .error .tokenTampered := by
  refine ⟨by decide,by decide,by decide,_,rfl,by decide⟩

end OtNode

end Kave
