import Kave.Backend
import Kave.LexPrefix
import Kave.Sealing

/-! The bytes of entries and of bucket keys. Integers are written big-endian, so that the order of the bytes is the order of
    the revisions. An entry has two fields of any length, each behind its length, so that where it ends is known only while it
    is read. -/

namespace Kave

open Sealing (bigEndian ofBigEndian)

/-! ### Machine integers -/

/-- An `int64`, as the unsigned number with the same bits. -/
def int64Bytes (v : Int64) : Bytes := bigEndian 8 v.toUInt64.toNat

def int64Of (bytes : Bytes) : Int64 := (UInt64.ofNat (ofBigEndian bytes)).toInt64

/-- The eight bytes at an offset. -/
def readInt64 (src : Bytes) (offset : Nat) : Int64 := (UInt64.ofNat (ofBigEndian ((src.drop offset).take 8))).toInt64

@[simp] theorem length_int64Bytes (v : Int64) : (int64Bytes v).length = 8 := Sealing.length_bigEndian _ _

theorem int64Of_int64Bytes (v : Int64) : int64Of (int64Bytes v) = v := by
  rw [int64Of,int64Bytes,Sealing.uint64_bigEndian,Int64.toInt64_toUInt64]

theorem int64Bytes_int64Of {bytes : Bytes} (length : bytes.length = 8) : int64Bytes (int64Of bytes) = bytes := by
  have bound : ofBigEndian bytes < 2 ^ 64 := by simpa [length] using Sealing.ofBigEndian_lt bytes
  have same : (int64Of bytes).toUInt64.toNat = ofBigEndian bytes := by
    rw [int64Of,UInt64.toUInt64_toInt64,UInt64.toNat_ofNat',Nat.mod_eq_of_lt bound]
  rw [int64Bytes,same,← length,Sealing.bigEndian_ofBigEndian]

theorem readInt64_append (before after : Bytes) (v : Int64) {offset : Nat} (length : before.length = offset) :
    readInt64 (before ++ (int64Bytes v ++ after)) offset = v := by
  rw [readInt64,List.drop_left' length,List.take_left' (length_int64Bytes v)]
  exact int64Of_int64Bytes v

/-! ### Entries -/

inductive EntryError
  /-- `codec error: failed to encode nil entry` -/
  | nilEntry
  /-- `codec error: nil buffer recieved` -/
  | nilBuffer
  /-- `codec error: decoding failed: data too short for key length` -/
  | keyLength
  /-- `codec error: decoding failed: data too short for key` -/
  | key
  /-- `codec error: decoding failed: data too short for value length` -/
  | valueLength
  /-- `codec error: decoding failed: data too short for value` -/
  | value
  /-- `codec error: decoding failed: data too short for fixed fields` -/
  | fixedFields
deriving DecidableEq, Repr

/-- A field behind its length, of which four bytes are written. -/
def sized (field : Bytes) : Bytes := bigEndian 4 field.length ++ field

/-- The last four fields. -/
def fixedFields (e : Entry) : Bytes :=
  int64Bytes (Int64.ofInt e.createRev) ++ (int64Bytes (Int64.ofInt e.modRev) ++ (int64Bytes (Int64.ofInt e.version) ++ int64Bytes e.leaseID))

def encodeKvEntry : Option Entry → Except EntryError Bytes
  | none => .error .nilEntry
  | some e => .ok (sized e.key ++ (sized (e.value.getD []) ++ fixedFields e))

/-- `n` bytes from an offset on, which the source takes without a check of its own: out of bounds it panics. -/
def slice (data : Bytes) (offset n : Nat) : Option Bytes :=
  if offset + n ≤ data.length then some ((data.drop offset).take n) else none

/-- `DecodeEntry`: the entry as far as it was read and the error, or nothing after a panic. -/
def decodeEntry : Option Bytes → Option (Option Entry × Option EntryError)
  | none => some (none,some .nilBuffer)
  | some data => do
    let e : Entry := ⟨[],none,0,0,0,0⟩
    if data.length < 4 then return (some e,some .keyLength)
    let keyLen := ofBigEndian (← slice data 0 4)
    let offset := 4
    if data.length < offset + keyLen then return (some e,some .key)
    let e := { e with key := ← slice data offset keyLen }
    let offset := offset + keyLen
    if data.length < offset + 4 then return (some e,some .valueLength)
    let valLen := ofBigEndian (← slice data offset 4)
    let offset := offset + 4
    if data.length < offset + valLen then return (some e,some .value)
    let e := { e with value := some (← slice data offset valLen) }
    let offset := offset + valLen
    if data.length < offset + 32 then return (some e,some .fixedFields)
    let e := { e with createRev := (int64Of (← slice data offset 8)).toInt }
    let e := { e with modRev := (int64Of (← slice data (offset + 8) 8)).toInt }
    let e := { e with version := (int64Of (← slice data (offset + 16) 8)).toInt }
    let e := { e with leaseID := int64Of (← slice data (offset + 24) 8) }
    return (some e,none)

theorem slice_append (before bytes after : Bytes) {offset n : Nat} (at_ : before.length = offset) (length : bytes.length = n) :
    slice (before ++ (bytes ++ after)) offset n = some bytes := by
  rw [slice,if_pos (by simp; omega),List.drop_left' at_,List.take_left' length]

theorem slice_of_le {data : Bytes} {offset n : Nat} (fits : offset + n ≤ data.length) :
    ∃ bytes, slice data offset n = some bytes ∧ bytes.length = n ∧ data.drop offset = bytes ++ data.drop (offset + n) := by
  refine ⟨(data.drop offset).take n,if_pos fits,by simp; omega,?_⟩
  rw [← List.drop_drop,List.take_append_drop]

theorem decodeEntry_encoded (key val : Bytes) (createRev modRev version leaseID : Int64) (shortKey : key.length < 2 ^ 32)
    (shortValue : val.length < 2 ^ 32) :
    decodeEntry (some (sized key ++ (sized val ++ (int64Bytes createRev ++ (int64Bytes modRev ++ (int64Bytes version ++ int64Bytes leaseID)))))) =
      some (some ⟨key,some val,createRev.toInt,modRev.toInt,version.toInt,leaseID⟩,none) := by
  generalize whole : sized key ++ (sized val ++ (int64Bytes createRev ++ (int64Bytes modRev ++ (int64Bytes version ++ int64Bytes leaseID)))) = data
  have length : data.length = 4 + key.length + 4 + val.length + 32 := by
    rw [← whole]
    simp [sized]
    omega
  have keyLen : ofBigEndian (bigEndian 4 key.length) = key.length := Sealing.ofBigEndian_of_lt shortKey
  have valLen : ofBigEndian (bigEndian 4 val.length) = val.length := Sealing.ofBigEndian_of_lt shortValue
  have first : slice data 0 4 = some (bigEndian 4 key.length) := by
    rw [← whole,sized,List.append_assoc]
    exact slice_append [] _ _ rfl (Sealing.length_bigEndian 4 _)
  have second : slice data 4 key.length = some key := by
    rw [← whole,sized,List.append_assoc]
    exact slice_append _ _ _ (Sealing.length_bigEndian 4 _) rfl
  have third : slice data (4 + key.length) 4 = some (bigEndian 4 val.length) := by
    rw [← whole,sized,sized,List.append_assoc (bigEndian 4 val.length)]
    exact slice_append _ _ _ (by simp) (by simp)
  have fourth : slice data (4 + key.length + 4) val.length = some val := by
    rw [← whole,sized,sized,List.append_assoc (bigEndian 4 val.length),← List.append_assoc _ (bigEndian 4 val.length)]
    exact slice_append _ _ _ (by simp; omega) rfl
  have fixed : ∀ (before after : Bytes) (v : Int64) (offset : Nat), before.length + 4 + key.length + 4 + val.length = offset →
      data = sized key ++ sized val ++ before ++ (int64Bytes v ++ after) → slice data offset 8 = some (int64Bytes v) := by
    intro before after v offset at_ is
    rw [is]
    exact slice_append _ _ _ (by simp [sized]; omega) (by simp)
  have createRev_ := fixed [] (int64Bytes modRev ++ (int64Bytes version ++ int64Bytes leaseID)) createRev
    (4 + key.length + 4 + val.length) (by simp) (by simp [← whole])
  have modRev_ := fixed (int64Bytes createRev) (int64Bytes version ++ int64Bytes leaseID) modRev
    (4 + key.length + 4 + val.length + 8) (by simp; omega) (by simp [← whole])
  have version_ := fixed (int64Bytes createRev ++ int64Bytes modRev) (int64Bytes leaseID) version
    (4 + key.length + 4 + val.length + 16) (by simp; omega) (by simp [← whole])
  have leaseID_ := fixed (int64Bytes createRev ++ int64Bytes modRev ++ int64Bytes version) [] leaseID
    (4 + key.length + 4 + val.length + 24) (by simp; omega) (by simp [← whole])
  have enough : ¬ data.length < 4 ∧ ¬ data.length < 4 + key.length ∧ ¬ data.length < 4 + key.length + 4 ∧
      ¬ data.length < 4 + key.length + 4 + val.length ∧ ¬ data.length < 4 + key.length + 4 + val.length + 32 := by omega
  simp only [decodeEntry,enough,if_false,first,second,third,fourth,keyLen,valLen,createRev_,modRev_,version_,leaseID_,
    int64Of_int64Bytes,Option.pure_def,Option.bind_eq_bind,Option.bind_some]

/-- There was no panic, and an entry without an error is encoded by the first of the bytes. -/
def EntryRead (data : Option Bytes) (result : Option (Option Entry × Option EntryError)) : Prop :=
  ∃ entry err, result = some (entry,err) ∧
    (err = none → ∃ e bytes rest, entry = some e ∧ encodeKvEntry (some e) = .ok bytes ∧ data = some (bytes ++ rest))

theorem EntryRead.failed (data : Option Bytes) (entry : Option Entry) (err : EntryError) : EntryRead data (some (entry,some err)) :=
  ⟨entry,some err,rfl,nofun⟩

/-- Whatever the bytes are, no read is out of bounds. -/
theorem decodeEntry_reads (data : Option Bytes) : EntryRead data (decodeEntry data) := by
  cases data with
  | none => exact .failed _ _ _
  | some data =>
    simp only [decodeEntry]
    split
    · exact .failed _ _ _
    obtain ⟨keyLen,read₁,length₁,split₁⟩ := slice_of_le (show 0 + 4 ≤ data.length by omega)
    rw [read₁]
    change EntryRead _ (if _ then _ else _)
    split
    · exact .failed _ _ _
    obtain ⟨key,read₂,length₂,split₂⟩ := slice_of_le (show 4 + ofBigEndian keyLen ≤ data.length by omega)
    rw [read₂]
    change EntryRead _ (if _ then _ else _)
    split
    · exact .failed _ _ _
    obtain ⟨valLen,read₃,length₃,split₃⟩ := slice_of_le (show 4 + ofBigEndian keyLen + 4 ≤ data.length by omega)
    rw [read₃]
    change EntryRead _ (if _ then _ else _)
    split
    · exact .failed _ _ _
    obtain ⟨val,read₄,length₄,split₄⟩ := slice_of_le (show 4 + ofBigEndian keyLen + 4 + ofBigEndian valLen ≤ data.length by omega)
    rw [read₄]
    change EntryRead _ (if _ then _ else _)
    split
    · exact .failed _ _ _
    obtain ⟨a,read₅,length₅,split₅⟩ := slice_of_le (show 4 + ofBigEndian keyLen + 4 + ofBigEndian valLen + 8 ≤ data.length by omega)
    obtain ⟨b,read₆,length₆,split₆⟩ := slice_of_le (show 4 + ofBigEndian keyLen + 4 + ofBigEndian valLen + 8 + 8 ≤ data.length by omega)
    obtain ⟨c,read₇,length₇,split₇⟩ := slice_of_le (show 4 + ofBigEndian keyLen + 4 + ofBigEndian valLen + 16 + 8 ≤ data.length by omega)
    obtain ⟨d,read₈,length₈,split₈⟩ := slice_of_le (show 4 + ofBigEndian keyLen + 4 + ofBigEndian valLen + 24 + 8 ≤ data.length by omega)
    rw [read₅,read₆,read₇,read₈]
    refine ⟨_,_,rfl,fun _ => ⟨_,_,data.drop (4 + ofBigEndian keyLen + 4 + ofBigEndian valLen + 32),rfl,rfl,?_⟩⟩
    have keySized : sized key = keyLen ++ key := by
      rw [sized,length₂,← length₁,Sealing.bigEndian_ofBigEndian]
    have valSized : sized val = valLen ++ val := by
      rw [sized,length₄,← length₃,Sealing.bigEndian_ofBigEndian]
    simp only [fixedFields,Option.getD_some,keySized,valSized,Int64.ofInt_toInt,int64Bytes_int64Of length₅,
      int64Bytes_int64Of length₆,int64Bytes_int64Of length₇,int64Bytes_int64Of length₈,List.append_assoc,Option.some.injEq]
    calc data
      _ = keyLen ++ data.drop 4 := split₁
      _ = _ := by rw [split₂,split₃,split₄,split₅,split₆,split₇,split₈]

/-- Decoding an encoded entry gives it back, with an empty value for a nil one; and of whatever bytes, decoding stays within their
    bounds and returns an error or the entry that the first of them encode. -/
theorem entry_codec_exact_and_safe (key : Bytes) (value : Option Bytes) (createRev modRev version leaseID : Int64) (data : Option Bytes) :
    let e : Entry := ⟨key,value,createRev.toInt,modRev.toInt,version.toInt,leaseID⟩
    (key.length < 2 ^ 32 → (value.getD []).length < 2 ^ 32 →
      ∃ bytes, encodeKvEntry (some e) = .ok bytes ∧ decodeEntry (some bytes) = some (some e.stored,none)) ∧
    ∃ entry err, decodeEntry data = some (entry,err) ∧
      (err = none → ∃ e bytes rest, entry = some e ∧ encodeKvEntry (some e) = .ok bytes ∧ data = some (bytes ++ rest)) := by
  intro e
  refine ⟨fun shortKey shortValue => ⟨_,rfl,?_⟩,decodeEntry_reads data⟩
  simp only [fixedFields, Int64.ofInt_toInt, e]
  exact decodeEntry_encoded key _ createRev modRev version leaseID shortKey shortValue

/-- An entry without a value, under a lease with a negative id. -/
theorem entry_codec_exact_tombstone :
    ∃ bytes, encodeKvEntry (some ⟨[97],none,0,7,-1,-2⟩) = .ok bytes ∧
      decodeEntry (some bytes) = some (some ⟨[97],some [],0,7,-1,-2⟩,none) :=
  (entry_codec_exact_and_safe [97] none 0 7 (-1) (-2) none).1 (by decide) (by decide)

/-! ### Bucket keys -/

def revBytesLen : Nat := 16

def markedRevBytesLen : Nat := 17

def markBytePosition : Nat := 16

/-- The letter T. -/
def markTombstone : UInt8 := 84

def newRevBytes : Bytes := List.replicate revBytesLen 0

/-- `EncodeKvBucketKey`, which panics if the buffer has no room for a revision. -/
def encodeKvBucketKey (bk : KvBucketKey) (buf : Bytes) : Option Bytes :=
  if buf.length < revBytesLen then none
  else
    let buf := int64Bytes (Int64.ofInt bk.rev.main) ++ (int64Bytes (Int64.ofInt bk.rev.sub) ++ buf.drop revBytesLen)
    if bk.tombstone then
      if buf.length = revBytesLen then some (buf ++ [markTombstone])
      else if markedRevBytesLen ≤ buf.length then some (buf.set markBytePosition markTombstone)
      else some buf
    else some buf

def isTombstone (b : Bytes) : Bool := b.length = markedRevBytesLen && b[markBytePosition]? = some markTombstone

/-- `DecodeKvBucketKey`, which panics on a key of another length. -/
def decodeKvBucketKey (src : Bytes) : Option KvBucketKey :=
  if src.length ≠ revBytesLen ∧ src.length ≠ markedRevBytesLen then none
  else some ⟨⟨(readInt64 src 0).toInt,(readInt64 src 8).toInt⟩,isTombstone src⟩

/-- The revision is one of non-negative `int64`s. -/
structure KvBucketKey.Storable (k : KvBucketKey) : Prop where
  main_nonneg : 0 ≤ k.rev.main
  main_lt : k.rev.main < 2 ^ 63
  sub_nonneg : 0 ≤ k.rev.sub
  sub_lt : k.rev.sub < 2 ^ 63

def KvBucketKey.bytes (k : KvBucketKey) : Bytes :=
  int64Bytes (Int64.ofInt k.rev.main) ++ (int64Bytes (Int64.ofInt k.rev.sub) ++ if k.tombstone then [markTombstone] else [])

theorem encodeKvBucketKey_fresh (k : KvBucketKey) : encodeKvBucketKey k newRevBytes = some k.bytes := by
  cases marked : k.tombstone <;>
    simp [encodeKvBucketKey,newRevBytes,revBytesLen,KvBucketKey.bytes,marked]

theorem bigEndian_lt_iff {n v w : Nat} (fits : v < 256 ^ n) (fits' : w < 256 ^ n) : bigEndian n v < bigEndian n w ↔ v < w := by
  induction n generalizing v w with
  | zero =>
    have both : v = 0 ∧ w = 0 := by omega
    simp [both]
  | succ n ih =>
    rw [Nat.pow_succ] at fits fits'
    have high : v / 256 < 256 ^ n := by omega
    have high' : w / 256 < 256 ^ n := by omega
    have same : bigEndian n (v / 256) = bigEndian n (w / 256) ↔ v / 256 = w / 256 := by
      refine ⟨fun bytes => ?_,fun is => by rw [is]⟩
      rw [← Sealing.ofBigEndian_of_lt high,bytes,Sealing.ofBigEndian_of_lt high']
    have last : [UInt8.ofNat v] < [UInt8.ofNat w] ↔ v % 256 < w % 256 := by
      rw [List.cons_lt_cons_iff,UInt8.lt_iff_toNat_lt]
      simp
    rw [bigEndian,bigEndian,LexPrefix.append_lt_append_iff (by simp),ih high high',same,last]
    omega

section
variable {v w : Int}

theorem toNat_toUInt64 (nonneg : 0 ≤ v) (fits : v < 2 ^ 63) : (Int64.ofInt v).toUInt64.toNat = v.toNat := by
  have same : (Int64.ofInt v).toInt = v := Int64.toInt_ofInt_of_le (by omega) fits
  have sign : 0 ≤ Int64.ofInt v := by
    rw [Int64.le_iff_toInt_le,same]
    exact nonneg
  rw [Int64.toNat_toUInt64_of_le sign,Int64.toNatClampNeg,same]

theorem int64Bytes_lt_iff (nonneg : 0 ≤ v) (fits : v < 2 ^ 63) (nonneg' : 0 ≤ w) (fits' : w < 2 ^ 63) :
    int64Bytes (Int64.ofInt v) < int64Bytes (Int64.ofInt w) ↔ v < w := by
  rw [int64Bytes,int64Bytes,bigEndian_lt_iff (by simpa using UInt64.toNat_lt _) (by simpa using UInt64.toNat_lt _),
    toNat_toUInt64 nonneg fits,toNat_toUInt64 nonneg' fits']
  omega

theorem int64Bytes_eq_iff (nonneg : 0 ≤ v) (fits : v < 2 ^ 63) (nonneg' : 0 ≤ w) (fits' : w < 2 ^ 63) :
    int64Bytes (Int64.ofInt v) = int64Bytes (Int64.ofInt w) ↔ v = w := by
  refine ⟨fun bytes => ?_,fun is => by rw [is]⟩
  have same := congrArg (Int64.toInt ∘ int64Of) bytes
  simp only [Function.comp_apply,int64Of_int64Bytes] at same
  rwa [Int64.toInt_ofInt_of_le (by omega) fits, Int64.toInt_ofInt_of_le (by omega) fits'] at same

end

namespace KvBucketKey

variable {a b : KvBucketKey}

theorem Storable.decode (range : a.Storable) : decodeKvBucketKey a.bytes = some a := by
  have main : readInt64 a.bytes 0 = Int64.ofInt a.rev.main := readInt64_append [] _ _ rfl
  have sub : readInt64 a.bytes 8 = Int64.ofInt a.rev.sub := readInt64_append _ _ _ (length_int64Bytes _)
  have mark : isTombstone a.bytes = a.tombstone := by
    cases marked : a.tombstone <;> simp [isTombstone,bytes,marked,markedRevBytesLen,markBytePosition]
  have length : a.bytes.length = revBytesLen ∨ a.bytes.length = markedRevBytesLen := by
    cases marked : a.tombstone <;> simp [bytes,marked,revBytesLen,markedRevBytesLen]
  rw [decodeKvBucketKey,if_neg (by omega),main,sub,mark,
    Int64.toInt_ofInt_of_le (by have := range.main_nonneg; omega) range.main_lt,
    Int64.toInt_ofInt_of_le (by have := range.sub_nonneg; omega) range.sub_lt]

theorem Storable.bytes_lt_iff (range : a.Storable) (range' : b.Storable) : a.bytes < b.bytes ↔ a < b := by
  have mark : (if a.tombstone then [markTombstone] else []) < (if b.tombstone then [markTombstone] else []) ↔
      a.tombstone < b.tombstone := by
    cases a.tombstone <;> cases b.tombstone <;> decide
  have rev : a.rev = b.rev ↔ a.rev.main = b.rev.main ∧ a.rev.sub = b.rev.sub := by
    rw [Revision.mk.injEq]
  rw [bytes,bytes,LexPrefix.append_lt_append_iff (by simp),LexPrefix.append_lt_append_iff (by simp),mark,
    int64Bytes_lt_iff range.main_nonneg range.main_lt range'.main_nonneg range'.main_lt,
    int64Bytes_lt_iff range.sub_nonneg range.sub_lt range'.sub_nonneg range'.sub_lt,
    int64Bytes_eq_iff range.main_nonneg range.main_lt range'.main_nonneg range'.main_lt,
    int64Bytes_eq_iff range.sub_nonneg range.sub_lt range'.sub_nonneg range'.sub_lt,lt_iff,Revision.lt_iff,rev,and_or_left,
    or_assoc,and_assoc]

theorem Storable.bytes_inj (range : a.Storable) (range' : b.Storable) (same : a.bytes = b.bytes) : a = b := by
  have decoded := range.decode
  rw [same,range'.decode] at decoded
  exact (Option.some.inj decoded).symm

end KvBucketKey

end Kave
