import Kave.Ot
import Kave.Sealing

/-! Tokens: the scalar of the server with the time it was drawn at, sealed under the cluster key. The server keeps no state
    between the two halves of a transfer, so any replica that has the key can go on with a token of another one. -/

namespace Kave

open Sealing

def nonceSize : Nat := 12

def timestampSize : Nat := 8

def scalarSize : Nat := 32

def gcmTagSize : Nat := 16

def tokenSize : Nat := nonceSize + scalarSize + timestampSize + gcmTagSize

inductive TokenError
  /-- `token_codec error: invalid scalar size, expected 32` -/
  | invalidScalarSize
  /-- `token_codec error: invalid token sized` -/
  | invalidTokenSize
  /-- `token_codec error: token has expired` -/
  | tokenExpired
  /-- `token_codec error: decrypting token failed (tampered or wrong key)` -/
  | tokenTampered
  /-- `token_codec error: decrypting token plaintext with unexpected size` -/
  | plaintextCorrupted
deriving DecidableEq, Repr

/-- The cipher of tokens and slots, AES-GCM. -/
structure Gcm extends Aead where
  tag : toAead.tagSize = gcmTagSize

/-- A cipher that only authenticates, by the first half of the key. -/
def Gcm.tagged : Gcm where
  tagSize := gcmTagSize
  encrypt key _ text := text ++ (key ++ List.replicate gcmTagSize 0).take gcmTagSize
  decrypt key _ text :=
    let split := text.length - gcmTagSize
    if text.drop split = (key ++ List.replicate gcmTagSize 0).take gcmTagSize then some (text.take split) else none
  decrypt_encrypt key nonce text := by simp
  length_encrypt key nonce text := by simp
  tag := rfl

/-- The bytes drawn for a nonce. -/
abbrev Nonce := { bytes : Bytes // bytes.length = nonceSize }

def Nonce.zero : Nonce := ⟨List.replicate nonceSize 0,rfl⟩

namespace TokenCodec

/-- `seal`, with the nonce it draws and the time of the clock in nanoseconds. -/
def sealScalar (tc : TokenCodec) (gcm : Gcm) (nonce : Nonce) (now : Int64) (scalar : Bytes) : Except TokenError Bytes :=
  if scalar.length ≠ scalarSize then .error .invalidScalarSize
  else
    let timestamp := bigEndian timestampSize now.toUInt64.toNat
    .ok (nonce.1 ++ gcm.encrypt tc.clusterKey nonce.1 (scalar ++ timestamp))

/-- `open` at the time `now`. -/
def openToken (tc : TokenCodec) (gcm : Gcm) (now : Int64) (token : Bytes) : Except TokenError Bytes :=
  if token.length ≠ tokenSize then .error .invalidTokenSize
  else
    match gcm.decrypt tc.clusterKey (token.take nonceSize) (token.drop nonceSize) with
    | none => .error .tokenTampered
    | some plaintext =>
      if plaintext.length ≠ scalarSize + timestampSize then .error .plaintextCorrupted
      else
        let unixNanos := (UInt64.ofNat (ofBigEndian (plaintext.drop scalarSize))).toInt64
        if now.toInt - unixNanos.toInt > tc.maxTTL * 1000000000 then .error .tokenExpired
        else .ok (plaintext.take scalarSize)

variable {tc tc' : TokenCodec} {gcm : Gcm} {nonce : Nonce} {now now' : Int64} {scalar token : Bytes}

theorem openToken_sealScalar (same : tc'.clusterKey = tc.clusterKey) (run : tc.sealScalar gcm nonce now scalar = .ok token)
    (fresh : now'.toInt - now.toInt ≤ tc'.maxTTL * 1000000000) : tc'.openToken gcm now' token = .ok scalar := by
  rw [sealScalar] at run
  split at run
  · cases run
  next sized =>
    have size : scalar.length = scalarSize := not_not.mp sized
    cases run
    have length : (nonce.1 ++ gcm.encrypt tc.clusterKey nonce.1
        (scalar ++ bigEndian timestampSize now.toUInt64.toNat)).length = tokenSize := by
      rw [List.length_append,gcm.length_encrypt,List.length_append,length_bigEndian,nonce.2,size,gcm.tag]
      rfl
    have stamp : (UInt64.ofNat (ofBigEndian (bigEndian timestampSize now.toUInt64.toNat))).toInt64 = now := by
      rw [timestampSize,uint64_bigEndian]
      rfl
    rw [openToken,if_neg (not_not.mpr length),List.take_left' nonce.2,List.drop_left' nonce.2,same,gcm.decrypt_encrypt]
    simp only [List.length_append,size,length_bigEndian,ne_eq,not_true_eq_false,if_false]
    rw [List.drop_left' size,List.take_left' size,stamp,if_neg (not_lt.mpr fresh)]

end TokenCodec

end Kave
