import Kave.Codec
import Kave.LeaseRestore

/-! The lease records as the bytes in the bucket, some of which may not decode, and the loop of `Restore` that grants the
    leases again page by page. -/

namespace Kave

open Sealing (bigEndian)

/-! ### The bytes of a record -/

def encodeLease (r : LeaseRecord) : Bytes :=
  bigEndian 8 (leaseBucketKey r.id).toNat ++ (bigEndian 8 (Int64.ofInt r.ttl).toUInt64.toNat ++
    bigEndian 8 (Int64.ofInt r.remainingTTL).toUInt64.toNat)

/-- `DecodeLease`, which fails on a buffer not at least 24 bytes long. -/
def decodeLease (src : Bytes) : Option LeaseRecord :=
  if src.length < 24 then none else some ⟨readInt64 src 0,(readInt64 src 8).toInt,(readInt64 src 16).toInt⟩

/-- The numbers of seconds are those of an `int64`. -/
def LeaseRecord.Fits (r : LeaseRecord) : Prop := (Int64.ofInt r.ttl).toInt = r.ttl ∧ (Int64.ofInt r.remainingTTL).toInt = r.remainingTTL

theorem decodeLease_encodeLease {r : LeaseRecord} (fits : r.Fits) : decodeLease (encodeLease r) = some r := by
  have words : encodeLease r = int64Bytes r.id ++ (int64Bytes (Int64.ofInt r.ttl) ++ int64Bytes (Int64.ofInt r.remainingTTL)) := rfl
  have first : readInt64 (encodeLease r) 0 = r.id := readInt64_append [] _ _ rfl
  have second : readInt64 (encodeLease r) 8 = Int64.ofInt r.ttl := readInt64_append _ _ _ (length_int64Bytes _)
  have third : readInt64 (encodeLease r) 16 = Int64.ofInt r.remainingTTL := by
    rw [words,← List.append_assoc,← List.append_nil (int64Bytes (Int64.ofInt r.remainingTTL))]
    exact readInt64_append _ _ _ (by simp)
  rw [decodeLease,if_neg (by simp [words]),first,second,third,fits.1,fits.2]

/-! ### The loop -/

/-- The state of the loop: the manager, the bucket, and the leases granted again so far. -/
structure Regrants where
  lm : LeaseManager
  bucket : SortedMap UInt64 Bytes
  granted : List Int64

namespace Regrants

open LeaseManager (decoded mem_decoded)

/-- `unsafeRegrant`; its errors are only logged. -/
def unsafeRegrant (now : Readings) (state : Regrants) (l : Int64 × Int) : Regrants :=
  if l.2 ≤ 0 ∨ l.1 = 0 then state
  else
    let lease := Lease.new (now l.1) l.1 (min l.2 maxTTL)
    match state.lm.find? l.1 with
    | some _ => state
    | none => ⟨(state.lm.save lease).pushToHeap lease,state.bucket.insert (leaseBucketKey l.1) (encodeLease lease.record),
        state.granted ++ [l.1]⟩

/-- `Restore` up to its keys, on a cleared manager. -/
def restore (now : Readings) (fuel : Nat) (bucket : SortedMap UInt64 Bytes) : Option Regrants :=
  LeaseManager.leasePages decodeLease (·.bucket) (unsafeRegrant now) fuel 0 Int64.minValue ⟨.new,bucket,[]⟩

/-! ### What the loop grants -/

/-- Every record that decodes is under its own id. -/
def Filed (bucket : SortedMap UInt64 Bytes) : Prop :=
  ∀ key v r, bucket.find? key = some v → decodeLease v = some r → leaseBucketKey r.id = key

theorem find_unsafeRegrant (now : Readings) (state : Regrants) (l : Int64 × Int) {key : UInt64} (different : key ≠ leaseBucketKey l.1) :
    (unsafeRegrant now state l).bucket.find? key = state.bucket.find? key := by
  unfold unsafeRegrant
  split
  · rfl
  · cases state.lm.find? l.1 with
    | some _ => rfl
    | none =>
      change (state.bucket.insert _ _).find? key = _
      rw [SortedMap.find_insert,if_neg different]

theorem restore_eq {bucket : SortedMap UInt64 Bytes} (filed : Filed bucket) (now : Readings) {fuel : Nat}
    (enough : bucket.entries.length < fuel) : restore now fuel bucket =
      some ((LeaseManager.reached (decoded decodeLease bucket.entries)).foldl (unsafeRegrant now) ⟨.new,bucket,[]⟩) := by
  refine LeaseManager.leasePages_all (fun state l _ => find_unsafeRegrant now state l) ?_ enough
  exact filed

theorem lm_foldl_unsafeRegrant (now : Readings) (rs : List (Int64 × Int)) (state : Regrants) (s : KvStore) :
    (rs.foldl (unsafeRegrant now) state).lm = (rs.foldl (LeaseManager.regrant now) (state.lm,s)).1 := by
  induction rs generalizing state s with
  | nil => rfl
  | cons l rest ih =>
    have step : ∃ s', LeaseManager.regrant now (state.lm,s) l = ((unsafeRegrant now state l).lm,s') := by
      unfold LeaseManager.regrant unsafeRegrant
      split
      · exact ⟨s,rfl⟩
      · unfold LeaseManager.addLease
        cases state.lm.find? l.1 <;> exact ⟨_,rfl⟩
    obtain ⟨s',same⟩ := step
    rw [List.foldl_cons,List.foldl_cons,same]
    exact ih _ s'

theorem granted_foldl_unsafeRegrant (now : Readings) {rs : List (Int64 × Int)} (distinct : (rs.map (·.1)).Nodup)
    (valid : ∀ l ∈ rs, 0 < l.2 ∧ l.1 ≠ 0) {state : Regrants} (free : ∀ l ∈ rs, state.lm.find? l.1 = none) :
    (rs.foldl (unsafeRegrant now) state).granted = state.granted ++ rs.map (·.1) := by
  induction rs generalizing state with
  | nil => simp
  | cons l rest ih =>
    rw [List.map_cons,List.nodup_cons] at distinct
    obtain ⟨mine,valid⟩ := List.forall_mem_cons.mp valid
    obtain ⟨new,free⟩ := List.forall_mem_cons.mp free
    have step : unsafeRegrant now state l = ⟨(state.lm.save (Lease.new (now l.1) l.1 (min l.2 maxTTL))).pushToHeap
        (Lease.new (now l.1) l.1 (min l.2 maxTTL)),state.bucket.insert (leaseBucketKey l.1)
          (encodeLease (Lease.new (now l.1) l.1 (min l.2 maxTTL)).record),state.granted ++ [l.1]⟩ := by
      rw [unsafeRegrant,if_neg (by rw [not_or]; exact ⟨not_le.mpr mine.1,mine.2⟩),new]
    rw [List.foldl_cons,ih distinct.2 valid,step,List.map_cons,List.append_assoc,List.singleton_append]
    intro l' inside
    rw [step,LeaseManager.find_pushToHeap,LeaseManager.find_save,if_neg,free l' inside]
    intro same
    exact distinct.1 (List.mem_map.mpr ⟨l',inside,same⟩)

/-- The bucket has a record under the id that decodes and has time left. -/
def Alive (bucket : SortedMap UInt64 Bytes) (id : Int64) (r : LeaseRecord) : Prop :=
  ∃ v, bucket.find? (leaseBucketKey id) = some v ∧ decodeLease v = some r ∧ 0 < r.remainingTTL

section

variable {bucket : SortedMap UInt64 Bytes}

theorem decoded_sorted (bucket : SortedMap UInt64 Bytes) : (decoded decodeLease bucket.entries).Pairwise fun a b => a.1 < b.1 :=
  (bucket.filterMap fun _ v => decodeLease v).sorted

theorem Filed.names (filed : Filed bucket) : ∀ e ∈ decoded decodeLease bucket.entries, leaseBucketKey e.2.id = e.1 := by
  rintro ⟨key,r⟩ inside
  obtain ⟨v,present,decodes⟩ := mem_decoded.mp inside
  exact filed key v r (SortedMap.mem_entries.mp present) decodes

theorem mem_reached_decoded (filed : Filed bucket) {id : Int64} {ttl : Int} :
    (id,ttl) ∈ LeaseManager.reached (LeaseManager.decoded decodeLease bucket.entries) ↔
      (∃ r, Alive bucket id r ∧ r.remainingTTL = ttl) ∧ ¬(id < 0 ∧ ∃ r, Alive bucket Int64.maxValue r) := by
  rw [LeaseManager.mem_reached (decoded_sorted bucket) filed.names]
  simp only [mem_decoded,SortedMap.mem_entries,Alive]
  grind

end

/-- Over the bytes of a bucket of records, the loop makes the same leases as over the records themselves. -/
theorem paged_restore_reads_records {s : KvStore} (filed : LeaseManager.Filed s.backend.buckets.lease)
    (fits : ∀ key r, s.backend.buckets.lease.find? key = some r → r.Fits) {bucket : SortedMap UInt64 Bytes}
    (bytes : ∀ key, bucket.find? key = (s.backend.buckets.lease.find? key).map encodeLease) (now : Readings) {fuel : Nat}
    (enough : bucket.entries.length < fuel) : ∃ out, restore now fuel bucket = some out ∧
      out.lm = (LeaseManager.regrantPages now (s.backend.buckets.lease.entries.length + 1) 0 Int64.minValue (LeaseManager.new,s)).1 := by
  have records : decoded decodeLease bucket.entries = s.backend.buckets.lease.entries := by
    have back : bucket.filterMap (fun _ v => decodeLease v) = s.backend.buckets.lease := by
      refine SortedMap.ext_find fun key => ?_
      rw [SortedMap.find_filterMap,bytes]
      cases found : s.backend.buckets.lease.find? key with
      | none => rfl
      | some r => rw [Option.map_some,Option.bind_some,decodeLease_encodeLease (fits key r found)]
    exact congrArg SortedMap.entries back
  have filed' : Filed bucket := by
    intro key v r found decodes
    have member := mem_decoded.mpr ⟨v,SortedMap.mem_entries.mpr found,decodes⟩
    rw [records] at member
    exact filed key r (SortedMap.mem_entries.mp member)
  refine ⟨_,restore_eq filed' now enough,?_⟩
  rw [records,LeaseManager.regrantPages_all now filed]
  exact lm_foldl_unsafeRegrant now _ _ s

/-- Two records, which are two pages. -/
theorem paged_restore_reads_records_two :
    let bucket := (SortedMap.empty.insert (leaseBucketKey 7) (encodeLease ⟨7,9,3⟩)).insert (leaseBucketKey 8) (encodeLease ⟨8,9,4⟩)
    ∃ out, restore 0 3 bucket = some out ∧ (out.lm.find? 7).map (·.ttl) = some 3 ∧ (out.lm.find? 8).map (·.ttl) = some 4 := by
  intro bucket
  let records : SortedMap UInt64 LeaseRecord := (SortedMap.empty.insert (leaseBucketKey 7) ⟨7,9,3⟩).insert (leaseBucketKey 8) ⟨8,9,4⟩
  have each : ∀ e ∈ records.entries, leaseBucketKey e.2.id = e.1 ∧ e.2.Fits := by
    unfold LeaseRecord.Fits
    decide
  have bytes : ∀ key, bucket.find? key = (records.find? key).map encodeLease := by
    intro key
    simp only [bucket,records,SortedMap.find_insert]
    split
    next => rfl
    next => split <;> rfl
  obtain ⟨out,ends,same⟩ := @paged_restore_reads_records (KvStore.new ⟨{ Buckets.empty with lease := records },[]⟩)
    (fun key r found => (each (key,r) (SortedMap.mem_entries.mpr found)).1)
    (fun key r found => (each (key,r) (SortedMap.mem_entries.mpr found)).2) bucket bytes 0 3 (by decide)
  refine ⟨out,ends,?_⟩
  rw [same]
  decide

end Regrants

/-- The loop ends, grants no lease again that is not alive, and grants every lease that is exactly once if and only if no
    negative id is alive together with the largest one. -/
theorem paged_restore_regrants_all_iff (now : Readings) (bucket : SortedMap UInt64 Bytes) (filed : Regrants.Filed bucket)
    (nonzero : bucket.find? (leaseBucketKey 0) = none) :
    ∃ out, (∀ fuel, bucket.entries.length < fuel → Regrants.restore now fuel bucket = some out) ∧
      (∀ id ∈ out.granted, ∃ r, Regrants.Alive bucket id r) ∧
      ((∀ id r, Regrants.Alive bucket id r → out.granted.count id = 1 ∧
          out.lm.find? id = some (Lease.new (now id) id (min r.remainingTTL maxTTL))) ↔
        ¬((∃ r, Regrants.Alive bucket Int64.maxValue r) ∧ ∃ id r, id < 0 ∧ Regrants.Alive bucket id r)) := by
  let rs := LeaseManager.reached (LeaseManager.decoded decodeLease bucket.entries)
  have distinct : (rs.map (·.1)).Nodup := LeaseManager.reached_distinct (Regrants.decoded_sorted bucket) filed.names
  have alive : ∀ l ∈ rs, ∃ r, Regrants.Alive bucket l.1 r ∧ r.remainingTTL = l.2 :=
    fun l inside => ((Regrants.mem_reached_decoded filed).mp inside).1
  have valid : ∀ l ∈ rs, 0 < l.2 ∧ l.1 ≠ 0 := by
    intro l inside
    obtain ⟨r,⟨v,found,-,positive⟩,same⟩ := alive l inside
    refine ⟨same ▸ positive,fun zero => ?_⟩
    rw [zero, nonzero] at found
    cases found
  have granted : (rs.foldl (Regrants.unsafeRegrant now) ⟨.new,bucket,[]⟩).granted = rs.map (·.1) :=
    Regrants.granted_foldl_unsafeRegrant now distinct valid fun _ _ => rfl
  refine ⟨_,fun fuel enough => Regrants.restore_eq filed now enough,fun id inside => ?_,?_⟩
  · rw [granted] at inside
    obtain ⟨l,member,rfl⟩ := List.mem_map.mp inside
    obtain ⟨r,live,-⟩ := alive l member
    exact ⟨r,live⟩
  · constructor
    · rintro all ⟨max,id,r,negative,live⟩
      have once := (all id r live).1
      rw [granted] at once
      obtain ⟨l,member,rfl⟩ := List.mem_map.mp (List.count_pos_iff.mp (by rw [once]; exact Nat.one_pos))
      exact ((Regrants.mem_reached_decoded filed).mp member).2 ⟨negative,max⟩
    · intro apart id r live
      have member : (id,r.remainingTTL) ∈ rs :=
        (Regrants.mem_reached_decoded filed).mpr ⟨⟨r,live,rfl⟩,fun ⟨negative,max⟩ => apart ⟨max,id,r,negative,live⟩⟩
      constructor
      · rw [granted]
        exact List.count_eq_one_of_mem distinct (List.mem_map_of_mem member)
      · rw [Regrants.lm_foldl_unsafeRegrant now rs _ (KvStore.new Backend.empty)]
        exact (LeaseManager.find_foldl_regrant now distinct fun _ _ => rfl).mpr
          (Or.inr ⟨_,member,(valid _ member).1,(valid _ member).2,rfl⟩)

/-- Between a record that does not decode and one without time left, both ids with time left are granted once. -/
theorem paged_restore_regrants_all_mixed :
    let bucket : SortedMap UInt64 Bytes := (((SortedMap.empty.insert (leaseBucketKey 5) [1,2,3]).insert (leaseBucketKey 7)
      (encodeLease ⟨7,9,0⟩)).insert (leaseBucketKey 9) (encodeLease ⟨9,9,3⟩)).insert (leaseBucketKey (-2)) (encodeLease ⟨-2,9,4⟩)
    ∃ out, Regrants.restore 0 5 bucket = some out ∧ out.granted.count 9 = 1 ∧ out.granted.count (-2) = 1 := by
  intro bucket
  have filed : Regrants.Filed bucket := by
    intro key v r found decodes
    have all : ∀ e ∈ bucket.entries, ∀ r ∈ decodeLease e.2, leaseBucketKey r.id = e.1 := by decide
    exact all (key,v) (SortedMap.mem_entries.mpr found) r decodes
  have max : bucket.find? (leaseBucketKey Int64.maxValue) = none := by decide
  obtain ⟨out,ends,-,every⟩ := paged_restore_regrants_all_iff 0 bucket filed (by decide)
  have all := every.mpr fun ⟨⟨r,v,found,_⟩,_⟩ => by rw [max] at found; cases found
  refine ⟨out,ends 5 (by decide),(all 9 ⟨9,9,3⟩ ?_).1,(all (-2) ⟨-2,9,4⟩ ?_).1⟩
  · exact ⟨encodeLease ⟨9,9,3⟩,by decide⟩
  · exact ⟨encodeLease ⟨-2,9,4⟩,by decide⟩

/-- The page of the largest id is the last one, though a lease with a negative id is alive. -/
theorem paged_restore_loses_negative :
    let bucket : SortedMap UInt64 Bytes := (SortedMap.empty.insert (leaseBucketKey Int64.maxValue)
      (encodeLease ⟨Int64.maxValue,5,5⟩)).insert (leaseBucketKey (-1)) (encodeLease ⟨-1,5,5⟩)
    ((bucket.find? (leaseBucketKey (-1))).bind decodeLease) = some ⟨-1,5,5⟩ ∧
      (Regrants.restore 0 3 bucket).map (·.granted) = some [Int64.maxValue] := by
  decide

end Kave
