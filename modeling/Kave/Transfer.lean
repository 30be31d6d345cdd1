import Kave.PrimeOrder
import Kave.Token

/-! The oblivious transfer of one slot of the blob: the two calls of the server, the receiver of the user interface and the receiver
    of the tests. Over any group of prime order the receiver opens the slot it has chosen. -/

namespace Kave

open Sealing

def maxSlotCount : Nat := 512

/-- What both sides agree on: the group with the encodings of its points and scalars, and the hash that makes keys of points. -/
structure Suite (P : Type) [AddCommGroup P] extends PrimeGroup P where
  encode : P → Bytes
  decode : Bytes → Option P
  decode_encode : ∀ p, decode (encode p) = some p
  encodeScalar : ℕ → Bytes
  decodeScalar : Bytes → Option ℕ
  decode_encodeScalar : ∀ a, decodeScalar (encodeScalar a) = some (a % order)
  length_encodeScalar : ∀ a, (encodeScalar a).length = scalarSize
  sha256 : Bytes → Bytes
  length_sha256 : ∀ bytes, (sha256 bytes).length = 32

inductive TransferError
  /-- `TokenCodec not initialized` -/
  | codecNotInitialized
  /-- The bytes of the client are not those of a point. -/
  | point
  /-- `ot error: client point cannot be the identity of the group` -/
  | identity
  | token (cause : TokenError)
  /-- The bytes in the token are not those of a scalar. -/
  | scalar
  | blob (cause : OtError)
  /-- The panic of `encryptSlot`. -/
  | panicked
deriving DecidableEq, Repr

/-! ### The server -/

/-- `blob[start:end]` of slot `i`. -/
def slotOf (opts : OtOptions) (blob : Bytes) (i : Nat) : Bytes := (blob.take ((i + 1) * opts.slotSize)).drop (i * opts.slotSize)

namespace OTManager

def blobToSlots (om : OTManager) (blob : Option Bytes) : Except OtError (List Bytes) :=
  (om.checkBlob blob).map fun _ => (List.range om.opts.slotCount).map (slotOf om.opts (blob.getD []))

/-- `encryptSlot`, with the nonce it draws. -/
def encryptSlot (om : OTManager) (gcm : Gcm) (nonce : Nonce) (slot key : Bytes) : Except TransferError Bytes :=
  if slot.length ≠ om.opts.slotSize then .error .panicked else .ok (nonce.1 ++ gcm.encrypt key nonce.1 slot)

end OTManager

section

variable {P : Type} [AddCommGroup P]

def sub (a b : P) : P := a + -b

/-- The point that `Transfer` derives for slot `e` from its scalar and the point of the client. -/
def Suite.keyPoint (suite : Suite P) (a : ℕ) (pointB : P) (e : ℕ) : P :=
  let pointA := a • suite.generator
  let aB := a • pointB
  let pointT := a • pointA
  sub aB (e • pointT)

/-- The key of a point. -/
def Suite.hashedKey (suite : Suite P) (p : P) : Bytes := suite.sha256 (suite.encode p)

namespace OTManager

/-- `Init`, with the scalar and the nonce it draws: the point of the server and the token. -/
def init (om : OTManager) (suite : Suite P) (gcm : Gcm) (nonce : Nonce) (now : Int64) (a : ℕ) : Except TransferError (Bytes × Bytes) :=
  match om.codec with
  | none => .error .codecNotInitialized
  | some codec =>
    match codec.sealScalar gcm nonce now (suite.encodeScalar a) with
    | .error e => .error (.token e)
    | .ok token => .ok (suite.encode (a • suite.generator),token)

/-- `Transfer`, with the nonces it draws for the slots. -/
def transfer [DecidableEq P] (om : OTManager) (suite : Suite P) (gcm : Gcm) (s : KvStore) (now : Int64) (nonces : ℕ → Nonce)
    (token pointB : Bytes) : Except TransferError (List Bytes) :=
  match om.codec with
  | none => .error .codecNotInitialized
  | some codec =>
    match suite.decode pointB with
    | none => .error .point
    | some pointB =>
      if pointB = 0 then .error .identity
      else
        match codec.openToken gcm now token with
        | .error e => .error (.token e)
        | .ok aBytes =>
          match suite.decodeScalar aBytes with
          | none => .error .scalar
          | some a =>
            match om.blobToSlots (otValue s.backend.buckets.ot.blob) with
            | .error e => .error (.blob e)
            | .ok slots => slots.zipIdx.mapM fun p => om.encryptSlot gcm (nonces p.2) p.1 (suite.hashedKey (suite.keyPoint a pointB p.2))

end OTManager

/-! ### The receiver of the user interface -/

inductive ClientError
  | point
  /-- `multiply` takes the scalars from one up to the order. -/
  | scalar
  /-- `Choice index out of bounds` -/
  | choice
  /-- `Hashed key size mismatch` -/
  | keySize
  /-- `Ciphertext too short to contain a valid nonce` -/
  | tooShort
  /-- `tryDecrypt failed` -/
  | decrypt
  /-- No error but a panic: a slice bound beyond the ciphertext. -/
  | slicePanic
deriving DecidableEq, Repr

def Suite.multiply (suite : Suite P) (p : P) (n : ℕ) : Except ClientError P :=
  if 0 < n ∧ n < suite.order then .ok (n • p) else .error .scalar

namespace Ui

/-- `blindedChoice`, with the scalar it draws: the point for the server. -/
def blindedChoice (suite : Suite P) (pointA : Bytes) (choice scalarB : ℕ) : Except ClientError Bytes :=
  match suite.decode pointA with
  | none => .error .point
  | some pointA => do
    let bG ← suite.multiply suite.generator scalarB
    if choice = 0 then return suite.encode bG
    else
      let cA ← suite.multiply pointA choice
      return suite.encode (bG + cA)

def tryDecrypt (suite : Suite P) (gcm : Gcm) (pointA : Bytes) (scalarB : ℕ) (ct : Bytes) : Except ClientError Bytes :=
  match suite.decode pointA with
  | none => .error .point
  | some pointA => do
    let key ← suite.multiply pointA scalarB
    let hashedKey := suite.hashedKey key
    if hashedKey.length ≠ 32 then throw .keySize
    else if ct.length < nonceSize then throw .tooShort
    else
      match gcm.decrypt hashedKey (ct.take nonceSize) (ct.drop nonceSize) with
      | none => throw .decrypt
      | some plaintext => return plaintext

def decrypt (suite : Suite P) (gcm : Gcm) (pointA : Bytes) (scalarB : ℕ) (ciphertexts : List Bytes) (choice : ℕ) :
    Except ClientError Bytes :=
  match ciphertexts[choice]? with
  | none => .error .choice
  | some ct => tryDecrypt suite gcm pointA scalarB ct

end Ui

/-! ### The receiver of the tests -/

namespace MockOTClient

/-- `BlindedChoice`, with the scalar it draws. -/
def blindedChoice (suite : Suite P) (pointA : Bytes) (choice scalarB : ℕ) : Except ClientError Bytes :=
  match suite.decode pointA with
  | none => .error .point
  | some pointA => .ok (suite.encode (scalarB • suite.generator + choice • pointA))

def tryDecrypt (suite : Suite P) (gcm : Gcm) (pointA : Bytes) (scalarB : ℕ) (ct : Bytes) : Except ClientError Bytes :=
  match suite.decode pointA with
  | none => .error .point
  | some pointA =>
    let hashedKey := suite.hashedKey (scalarB • pointA)
    if ct.length < nonceSize then .error .slicePanic
    else
      match gcm.decrypt hashedKey (ct.take nonceSize) (ct.drop nonceSize) with
      | none => .error .decrypt
      | some plaintext => .ok plaintext

def decrypt (suite : Suite P) (gcm : Gcm) (pointA : Bytes) (scalarB : ℕ) (ciphertexts : List Bytes) (choice : ℕ) :
    Except ClientError Bytes :=
  match ciphertexts[choice]? with
  | none => .error .choice
  | some ct => tryDecrypt suite gcm pointA scalarB ct

end MockOTClient

end

/-! ### Slots -/

theorem OTManager.checkBlob_length {om : OTManager} {blob : Bytes} (accepted : om.checkBlob (some blob) = .ok ()) :
    blob.length = om.opts.slotCount * om.opts.slotSize := by
  rw [OTManager.checkBlob] at accepted
  split at accepted
  · cases accepted
  next sized => exact not_not.mp sized

theorem length_slotOf {opts : OtOptions} {blob : Bytes} (sized : blob.length = opts.slotCount * opts.slotSize) {i : ℕ}
    (inside : i < opts.slotCount) : (slotOf opts blob i).length = opts.slotSize := by
  have fits : (i + 1) * opts.slotSize ≤ blob.length := by
    rw [sized]
    exact Nat.mul_le_mul_right _ inside
  rw [slotOf,List.length_drop,List.length_take,Nat.min_eq_left fits,Nat.succ_mul]
  omega

theorem mapM_ok {ε α β : Type} {f : α → Except ε β} {g : α → β} {l : List α} (ok : ∀ x ∈ l, f x = .ok (g x)) :
    l.mapM f = .ok (l.map g) := by
  induction l with
  | nil => rfl
  | cons x rest ih =>
    rw [List.mapM_cons,ok x List.mem_cons_self,ih fun y member => ok y (List.mem_cons_of_mem x member)]
    rfl

theorem zipIdx_map_range {α : Type} (f : ℕ → α) (n : ℕ) : ((List.range n).map f).zipIdx = (List.range n).map fun i => (f i,i) := by
  refine List.ext_getElem (by simp) fun i _ _ => ?_
  simp

section

variable {P : Type} [AddCommGroup P] {suite : Suite P} {gcm : Gcm} {om : OTManager} {codec : TokenCodec} {s : KvStore} {blob : Bytes}

/-- The scalar in the token is reduced, which makes no difference to the keys. -/
theorem Suite.keyPoint_mod (suite : Suite P) (a : ℕ) (pointB : P) (e : ℕ) :
    suite.keyPoint (a % suite.order) pointB e = suite.keyPoint a pointB e := by
  simp only [keyPoint,PrimeGroup.mod_nsmul]

/-- The key of a slot is the key of the receiver for the slot it has chosen, and for no other one. -/
theorem Suite.keyPoint_eq_iff (suite : Suite P) {n a : ℕ} (few : n ≤ suite.order) (proper : ¬ suite.order ∣ a) (b : ℕ) {c e : ℕ}
    (inside : c < n) (inside' : e < n) :
    suite.keyPoint a (b • suite.generator + c • a • suite.generator) e = b • a • suite.generator ↔ e = c := by
  rw [keyPoint,sub,suite.blinded_key_iff proper]
  constructor
  · intro same
    exact (Nat.ModEq.eq_of_lt_of_lt same (by omega) (by omega)).symm
  · rintro rfl
    rfl

theorem OTManager.init_ok (suite : Suite P) (gcm : Gcm) (ready : om.codec = some codec) (nonce : Nonce) (now : Int64) (a : ℕ) :
    ∃ token, om.init suite gcm nonce now a = .ok (suite.encode (a • suite.generator),token) ∧
      codec.sealScalar gcm nonce now (suite.encodeScalar a) = .ok token := by
  have sealed : codec.sealScalar gcm nonce now (suite.encodeScalar a) = .ok (nonce.1 ++ gcm.encrypt codec.clusterKey nonce.1
      (suite.encodeScalar a ++ bigEndian timestampSize now.toUInt64.toNat)) :=
    if_neg (not_not.mpr (suite.length_encodeScalar a))
  refine ⟨_,?_,sealed⟩
  simp only [init,ready,sealed]

theorem OTManager.transfer_ok [DecidableEq P] (suite : Suite P) (ready : om.codec = some codec)
    (written : otValue s.backend.buckets.ot.blob = some blob) (accepted : om.checkBlob (some blob) = .ok ()) {now : Int64} {token : Bytes} {a : ℕ}
    (opened : codec.openToken gcm now token = .ok (suite.encodeScalar a)) {pointB : P} (visible : pointB ≠ 0) (nonces : ℕ → Nonce) :
    om.transfer suite gcm s now nonces token (suite.encode pointB) = .ok ((List.range om.opts.slotCount).map fun e =>
      (nonces e).1 ++ gcm.encrypt (suite.hashedKey (suite.keyPoint a pointB e)) (nonces e).1 (slotOf om.opts blob e)) := by
  have slots : om.blobToSlots (otValue s.backend.buckets.ot.blob) = .ok ((List.range om.opts.slotCount).map (slotOf om.opts blob)) := by
    rw [blobToSlots,written,accepted]
    rfl
  have sized := checkBlob_length accepted
  simp only [transfer,ready,suite.decode_encode,if_neg visible,opened,suite.decode_encodeScalar,slots,zipIdx_map_range,
    suite.keyPoint_mod]
  rw [mapM_ok (g := fun p : Bytes × ℕ => (nonces p.2).1 ++ gcm.encrypt (suite.hashedKey (suite.keyPoint a pointB p.2)) (nonces p.2).1 p.1),
    List.map_map]
  · rfl
  · intro p member
    obtain ⟨e,inside,rfl⟩ := List.mem_map.mp member
    exact if_neg (not_not.mpr (length_slotOf sized (List.mem_range.mp inside)))

theorem Nonce.not_short (nonce : Nonce) (sealed : Bytes) : ¬ (nonce.1 ++ sealed).length < nonceSize := by
  rw [List.length_append,nonce.2]
  omega

theorem MockOTClient.tryDecrypt_ok (pointA : P) (b : ℕ) (nonce : Nonce) (slot : Bytes) :
    tryDecrypt suite gcm (suite.encode pointA) b (nonce.1 ++ gcm.encrypt (suite.hashedKey (b • pointA)) nonce.1 slot) = .ok slot := by
  simp only [tryDecrypt,suite.decode_encode,if_neg (nonce.not_short _),List.take_left' nonce.2,List.drop_left' nonce.2,
    gcm.decrypt_encrypt]

theorem Ui.tryDecrypt_ok (pointA : P) {b : ℕ} (positive : 0 < b) (less : b < suite.order) (nonce : Nonce) (slot : Bytes) :
    tryDecrypt suite gcm (suite.encode pointA) b (nonce.1 ++ gcm.encrypt (suite.hashedKey (b • pointA)) nonce.1 slot) = .ok slot := by
  have multiplied : suite.multiply pointA b = .ok (b • pointA) := if_pos ⟨positive,less⟩
  have sized : (suite.hashedKey (b • pointA)).length = 32 := suite.length_sha256 _
  simp only [tryDecrypt,suite.decode_encode,multiplied,bind,Except.bind,sized,ne_eq,not_true_eq_false,if_false,
    if_neg (nonce.not_short _),List.take_left' nonce.2,List.drop_left' nonce.2,gcm.decrypt_encrypt]
  rfl

/-- The special case of the first slot changes nothing. -/
theorem Ui.blindedChoice_ok (pointA : P) {b c : ℕ} (positive : 0 < b) (less : b < suite.order) (inside : c < suite.order) :
    blindedChoice suite (suite.encode pointA) c b = .ok (suite.encode (b • suite.generator + c • pointA)) := by
  have first : suite.multiply suite.generator b = .ok (b • suite.generator) := if_pos ⟨positive,less⟩
  simp only [blindedChoice,suite.decode_encode,first,bind,Except.bind]
  by_cases zero : c = 0
  · simp [zero,pure,Except.pure]
  · have second : suite.multiply pointA c = .ok (c • pointA) := if_pos ⟨Nat.pos_of_ne_zero zero,inside⟩
    simp [zero,second,pure,Except.pure]

/-- The transfer of any slot, over any group of prime order: a receiver that has chosen slot `c` has the key of that slot and of no
    other one, and reads exactly the bytes of its slot. The receiver of the user interface draws a scalar that is not zero. -/
theorem oblivious_transfer_correct [DecidableEq P] (suite : Suite P) (large : maxSlotCount < suite.order) (gcm : Gcm)
    (om : OTManager) (few : om.opts.slotCount ≤ maxSlotCount) (ready : om.codec = some codec) (s : KvStore) (blob : Bytes)
    (written : otValue s.backend.buckets.ot.blob = some blob) (accepted : om.checkBlob (some blob) = .ok ()) (a b c : ℕ)
    (proper : ¬ suite.order ∣ a) (inside : c < om.opts.slotCount) (visible : b • suite.generator + c • a • suite.generator ≠ 0)
    (nonce : Nonce) (nonces : ℕ → Nonce) (now now' : Int64) (fresh : now'.toInt - now.toInt ≤ codec.maxTTL * 1000000000) :
    let pointA := a • suite.generator
    let pointB := b • suite.generator + c • pointA
    let chosen := (blob.take ((c + 1) * om.opts.slotSize)).drop (c * om.opts.slotSize)
    ∃ token ciphertexts,
      om.init suite gcm nonce now a = .ok (suite.encode pointA,token) ∧
      om.transfer suite gcm s now' nonces token (suite.encode pointB) = .ok ciphertexts ∧
      ciphertexts = (List.range om.opts.slotCount).map (fun e =>
        (nonces e).1 ++ gcm.encrypt (suite.hashedKey (suite.keyPoint a pointB e)) (nonces e).1 (slotOf om.opts blob e)) ∧
      suite.keyPoint a pointB c = b • pointA ∧
      (∀ e < om.opts.slotCount, e ≠ c → suite.keyPoint a pointB e ≠ b • pointA) ∧
      MockOTClient.blindedChoice suite (suite.encode pointA) c b = .ok (suite.encode pointB) ∧
      MockOTClient.decrypt suite gcm (suite.encode pointA) b ciphertexts c = .ok chosen ∧
      (0 < b → b < suite.order → Ui.blindedChoice suite (suite.encode pointA) c b = .ok (suite.encode pointB) ∧
        Ui.decrypt suite gcm (suite.encode pointA) b ciphertexts c = .ok chosen) := by
  intro pointA pointB chosen
  obtain ⟨token,started,sealed⟩ := OTManager.init_ok suite gcm ready nonce now a
  have opened := TokenCodec.openToken_sealScalar rfl sealed fresh
  have answered := OTManager.transfer_ok suite ready written accepted opened visible nonces
  have keys : ∀ {e : ℕ}, e < om.opts.slotCount → (suite.keyPoint a pointB e = b • pointA ↔ e = c) := fun {e} inside' =>
    suite.keyPoint_eq_iff (by omega) proper b inside inside'
  have own : suite.keyPoint a pointB c = b • pointA := (keys inside).mpr rfl
  refine ⟨token,_,started,answered,rfl,own,fun e inside' other => mt (keys inside').mp other,?_,?_,fun positive less => ⟨?_,?_⟩⟩
  · simp only [MockOTClient.blindedChoice, suite.decode_encode]
    rfl
  · simp only [MockOTClient.decrypt, List.getElem?_map, List.getElem?_range inside, Option.map_some]
    change MockOTClient.tryDecrypt suite gcm _ b (_ ++ gcm.encrypt (suite.hashedKey (suite.keyPoint a pointB c)) _ _) = _
    rw [own]
    exact MockOTClient.tryDecrypt_ok pointA b (nonces c) _
  · exact Ui.blindedChoice_ok pointA positive less (by omega)
  · simp only [Ui.decrypt, List.getElem?_map, List.getElem?_range inside, Option.map_some]
    change Ui.tryDecrypt suite gcm _ b (_ ++ gcm.encrypt (suite.hashedKey (suite.keyPoint a pointB c)) _ _) = _
    rw [own]
    exact Ui.tryDecrypt_ok pointA positive less (nonces c) _

theorem Suite.encode_injective (suite : Suite P) : Function.Injective suite.encode := by
  intro x y same
  have decoded := congrArg suite.decode same
  rwa [suite.decode_encode, suite.decode_encode, Option.some_inj] at decoded

theorem Ui.blindedChoice_eq_iff (pointA : P) {c b : ℕ} (inside : c < suite.order) (pointB : P) :
    blindedChoice suite (suite.encode pointA) c b = .ok (suite.encode pointB) ↔
      (0 < b ∧ b < suite.order) ∧ b • suite.generator + c • pointA = pointB := by
  by_cases drawn : 0 < b ∧ b < suite.order
  · rw [blindedChoice_ok pointA drawn.1 drawn.2 inside,and_iff_right drawn,Except.ok.injEq,suite.encode_injective.eq_iff]
  · have refused : suite.multiply suite.generator b = .error .scalar := if_neg drawn
    simp [blindedChoice,suite.decode_encode,refused,bind,Except.bind,drawn]

/-- The choice stays hidden. What the receiver of the tests sends for one choice goes with every other one, for exactly one scalar.
    The receiver of the user interface draws no zero: what it sends goes with every choice but one of which it is the multiple. -/
theorem blinded_choice_hides (suite : Suite P) (pointA : P) (b c c' : ℕ) :
    let pointB := suite.encode (b • suite.generator + c • pointA)
    MockOTClient.blindedChoice suite (suite.encode pointA) c b = .ok pointB ∧
    (∃! b', b' < suite.order ∧ MockOTClient.blindedChoice suite (suite.encode pointA) c' b' = .ok pointB) ∧
    (c' < suite.order → ((∃! b', Ui.blindedChoice suite (suite.encode pointA) c' b' = .ok pointB) ↔
      b • suite.generator + c • pointA ≠ c' • pointA)) := by
  intro pointB
  have sent : ∀ c b, MockOTClient.blindedChoice suite (suite.encode pointA) c b =
      .ok (suite.encode (b • suite.generator + c • pointA)) := by
    intro c b
    simp only [MockOTClient.blindedChoice,suite.decode_encode]
  obtain ⟨n,⟨less,is⟩,only⟩ := suite.existsUnique_nsmul (b • suite.generator + c • pointA - c' • pointA)
  refine ⟨sent c b,?_,fun inside => ?_⟩
  · simp only [sent,pointB,Except.ok.injEq,suite.encode_injective.eq_iff,← eq_sub_iff_add_eq]
    exact ⟨n,⟨less,is⟩,only⟩
  · simp only [pointB,Ui.blindedChoice_eq_iff pointA inside,← eq_sub_iff_add_eq]
    rw [← sub_ne_zero]
    constructor
    · rintro ⟨k,⟨⟨positive,below⟩,scaled⟩,-⟩ zero
      have none : 0 = n := only 0 ⟨suite.prime.pos,by rw [zero,zero_nsmul]⟩
      have one : k = n := only k ⟨below,scaled⟩
      omega
    · intro proper
      have positive : 0 < n := Nat.pos_of_ne_zero fun zero => proper (by rw [← is,zero,zero_nsmul])
      exact ⟨n,⟨⟨positive,less⟩,is⟩,fun k other => only k ⟨other.1.2,other.2⟩⟩

end

/-- The integers modulo 521, with two bytes for a point. -/
def Suite.zmod521 : Suite (ZMod 521) where
  order := 521
  prime := by norm_num
  card := Nat.card_zmod 521
  generator := 1
  generates x := AddSubgroup.mem_zmultiples_iff.mpr ⟨x.val,by simp⟩
  encode p := bigEndian 2 p.val
  decode bytes := some (ofBigEndian bytes : ZMod 521)
  decode_encode p := by
    rw [ofBigEndian_of_lt (p.val_lt.trans (by norm_num)), ZMod.natCast_zmod_val]
  encodeScalar a := bigEndian scalarSize (a % 521)
  decodeScalar bytes := some (ofBigEndian bytes)
  decode_encodeScalar a := by
    rw [ofBigEndian_of_lt ((Nat.mod_lt a (by norm_num)).trans (by norm_num [scalarSize]))]
  length_encodeScalar a := length_bigEndian _ _
  sha256 bytes := (bytes ++ List.replicate 32 0).take 32
  length_sha256 bytes := by simp

/-- The third of sixteen slots. -/
theorem oblivious_transfer_correct_third :
    let om : OTManager := ⟨⟨16,32,30⟩,some ⟨List.replicate 32 1,30⟩⟩
    let blob : Bytes := List.replicate 64 1 ++ List.replicate 32 2 ++ List.replicate 416 1
    let s := OTManager.putBlob (KvStore.new Backend.empty) blob
    ∃ token ciphertexts, om.init Suite.zmod521 .tagged .zero 0 3 = .ok (Suite.zmod521.encode 3,token) ∧
      om.transfer Suite.zmod521 .tagged s 7 (fun _ => .zero) token (Suite.zmod521.encode 11) = .ok ciphertexts ∧
      Ui.decrypt Suite.zmod521 .tagged (Suite.zmod521.encode 3) 5 ciphertexts 2 = .ok (List.replicate 32 2) := by
  intro om blob s
  obtain ⟨token,ciphertexts,started,answered,-,-,-,-,-,ui⟩ := oblivious_transfer_correct Suite.zmod521 (by decide) .tagged om
    (by decide) rfl s blob rfl (by decide +kernel) 3 5 2 (by decide) (by decide) (by decide) .zero (fun _ => .zero) 0 7 (by decide)
  exact ⟨token,ciphertexts,started,answered,(ui (by decide) (by decide)).2⟩

end Kave
