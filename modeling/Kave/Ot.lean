import Kave.Store

/-! The part of the oblivious transfer that is replicated: the cluster key, the token codec made of it, and the blob. -/

namespace Kave

/-- The options of the transfer: the blob is so many slots of so many bytes. -/
structure OtOptions where
  slotCount : Nat
  slotSize : Nat
  tokenTTL : Int
deriving DecidableEq, Repr

def defaultOtOptions : OtOptions := ⟨32,64,30⟩

def clusterKeySize : Nat := 32

def maxTokenTTL : Int := 60

def defaultTokenTTL : Int := 30

/-- What a token codec is made of. -/
structure TokenCodec where
  clusterKey : Bytes
  maxTTL : Int
deriving DecidableEq, Repr

inductive OtError
  /-- `token_codec error: invalid cluster key size, expected 32` -/
  | invalidClusterKeySize
  /-- `blob is uninitialized (nil or all zeroes)` -/
  | blobUninitialized
  /-- `blob size is malformed, expected SlotCount * SlotSize` -/
  | blobSizeCorrupted
  /-- `TokenCodec not initialized` -/
  | codecNotInitialized
  /-- `failed to generate cluter key: init token codec error: …` -/
  | clusterKeyCodec (cause : OtError)
  /-- `failed to generate cluter key: cluster key already exists` -/
  | clusterKeyExists
  /-- `OT restore: init token codec error: …` -/
  | restoreCodec (cause : OtError)
  /-- `OT restore: …` -/
  | restore (cause : OtError)
deriving DecidableEq, Repr

/-- A cipher is made of every key of 32 bytes. -/
def newTokenCodec (clusterKey : Option Bytes) (ttl : Int) : Except OtError TokenCodec :=
  let key := clusterKey.getD []
  if key.length ≠ clusterKeySize then .error .invalidClusterKeySize
  else .ok ⟨key,if ttl ≤ 0 ∨ ttl > maxTokenTTL then defaultTokenTTL else ttl⟩

/-- The value a bucket gives back: an empty one reads as nil. -/
def otValue (value : Option Bytes) : Option Bytes := value.filter (· ≠ [])

structure OTManager where
  opts : OtOptions
  codec : Option TokenCodec

namespace OTManager

def new (opts : OtOptions) : OTManager := ⟨opts,none⟩

def checkBlob (om : OTManager) (blob : Option Bytes) : Except OtError Unit :=
  match blob with
  | none => .error .blobUninitialized
  | some blob =>
    if blob.length ≠ om.opts.slotCount * om.opts.slotSize then .error .blobSizeCorrupted
    else if blob.all (· = 0) then .error .blobUninitialized
    else .ok ()

/-- The write of the blob: one commit. -/
def putBlob (s : KvStore) (blob : Bytes) : KvStore := { s with backend := s.backend.commit [.putOtBlob blob] }

def applyWriteAll (om : OTManager) (s : KvStore) (blob : Option Bytes) : KvStore × Except OtError Unit :=
  if om.codec = none then (s,.error .codecNotInitialized)
  else
    match om.checkBlob blob with
    | .error e => (s,.error e)
    | .ok () => (putBlob s (blob.getD []),.ok ())

/-- `unsafeInitTokenCodec` -/
def initTokenCodec (om : OTManager) (key : Bytes) : Except OtError OTManager :=
  (newTokenCodec (some key) om.opts.tokenTTL).map fun codec => { om with codec := some codec }

/-- `ApplyGenerateClusterKey`: a key that is there already is kept, but the codec is made of the key of the command; a new
    key is stored before the codec is made of it. A key of the wrong size beside one that is there also leaves the write
    transaction open, for want of a `Rollback`; the next one then waits forever, which these states do not show. -/
def applyGenerateClusterKey (om : OTManager) (s : KvStore) (key : Bytes) : (OTManager × KvStore) × Except OtError Unit :=
  match otValue s.backend.buckets.ot.clusterKey with
  | some _ =>
    match om.initTokenCodec key with
    | .error e => ((om,s),.error (.clusterKeyCodec e))
    | .ok om => ((om,s),.error .clusterKeyExists)
  | none =>
    let s := { s with backend := s.backend.commit [.putOtClusterKey key] }
    match om.initTokenCodec key with
    | .error e => ((om,s),.error (.clusterKeyCodec e))
    | .ok om => ((om,s),.ok ())

def restore (om : OTManager) (s : KvStore) : (OTManager × KvStore) × Except OtError Unit :=
  match newTokenCodec (otValue s.backend.buckets.ot.clusterKey) om.opts.tokenTTL with
  | .error e => ((om,s),.error (.restoreCodec e))
  | .ok codec =>
    let om := { om with codec := some codec }
    let blob := otValue s.backend.buckets.ot.blob
    match om.checkBlob blob with
    | .error e => ((om,s),.error (.restore e))
    | .ok () => ((om,putBlob s (blob.getD [])),.ok ())

end OTManager

end Kave
