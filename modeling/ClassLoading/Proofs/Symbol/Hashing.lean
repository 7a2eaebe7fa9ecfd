import ClassLoading.Proofs.Symbol.Buckets

/-!
# Hash values

Both factors of the hash are odd, so each has an inverse modulo 2³² and no product loses anything. A step
of the hash can be undone: it tells apart the bytes that it takes in, and the hash values that it starts
from. So names that differ in one byte never share a bucket, and what follows two names decides nothing.
-/

namespace ClassLoading

namespace Symbol

variable {p q : List UInt8} {x y : UInt8}

theorem mul_injective_of_inverse {factor inverse : UInt32} (h : factor * inverse = 1) :
    Function.Injective fun word : UInt32 => word * factor := by
  intro word word' hproduct
  calc
    word = word * factor * inverse := by rw [UInt32.mul_assoc, h, UInt32.mul_one]
    _ = word' * factor * inverse := congrArg (· * inverse) hproduct
    _ = word' := by rw [UInt32.mul_assoc, h, UInt32.mul_one]

theorem hashStep_left_injective (b : UInt8) : Function.Injective (hashStep · b) := by
  intro h h' hstep
  have hinverse : (54059 : UInt32) * 651645827 = 1 := by decide
  exact mul_injective_of_inverse hinverse ((UInt32.xor_left_inj _).mp hstep)

theorem hashStep_right_injective (h : UInt32) : Function.Injective (hashStep h) := by
  intro b b' hstep
  have hinverse : (76963 : UInt32) * 2338645771 = 1 := by decide
  exact UInt8.toUInt32_inj.mp (mul_injective_of_inverse hinverse ((UInt32.xor_right_inj _).mp hstep))

theorem foldl_hashStep_injective (bytes : List UInt8) :
    Function.Injective fun h => bytes.foldl hashStep h := by
  induction bytes with
  | nil => exact fun _ _ h => h
  | cons b bytes ih => exact ih.comp (hashStep_left_injective b)

theorem hashBytes_append (p q : List UInt8) : hashBytes (p ++ q) = q.foldl hashStep (hashBytes p) :=
  List.foldl_append

/-- What follows two contents neither brings their hash values together nor keeps them apart. -/
theorem hashBytes_append_inj {p' : List UInt8} :
    hashBytes (p ++ q) = hashBytes (p' ++ q) ↔ hashBytes p = hashBytes p' := by
  rw [hashBytes_append, hashBytes_append]
  exact (foldl_hashStep_injective q).eq_iff

theorem hashBytes_concat_inj : hashBytes (p ++ [x]) = hashBytes (p ++ [y]) ↔ x = y := by
  rw [hashBytes_append, hashBytes_append]
  exact (hashStep_right_injective (hashBytes p)).eq_iff

theorem hashBytes_replace_inj : hashBytes (p ++ [x] ++ q) = hashBytes (p ++ [y] ++ q) ↔ x = y :=
  hashBytes_append_inj.trans hashBytes_concat_inj

end Symbol

namespace BucketTable

variable {s t : Symbol} {hash : UInt32}

theorem bucket_push (table : BucketTable) (t : Symbol) (hash : UInt32) : (table.push t).bucket hash =
    if t.hash = hash then table.bucket t.hash ++ [t] else table.bucket hash := by
  simp only [bucket, push, Std.HashMap.getD_insert, beq_iff_eq]

/-- To offer a symbol leaves the buckets of all other hash values alone. -/
theorem bucket_perform_of_ne {call : TableCall} (table : BucketTable) (hoffer : call.offered? = some t)
    (hne : t.hash ≠ hash) : (table.perform call).2.bucket hash = table.bucket hash := by
  have hpush : (table.push t).bucket hash = table.bucket hash :=
    (table.bucket_push t hash).trans (if_neg hne)
  cases call with
  | put s =>
      obtain rfl := Option.some.inj hoffer
      change (table.put s).2.bucket hash = table.bucket hash
      unfold put
      split
      · rfl
      · exact hpush
  | intern s =>
      obtain rfl := Option.some.inj hoffer
      change (table.intern s).2.bucket hash = table.bucket hash
      unfold intern
      split
      · rfl
      · exact hpush
  | contains | lookup | size | isEmpty => cases hoffer

theorem hash_of_mem_bucket {calls : List TableCall} (h : s ∈ (empty.after calls).bucket hash) :
    s.hash = hash := by
  rw [after_empty] at h
  exact ((SymbolTable.Reachable.empty.after calls).bucket hash).1 s h

/-- The first symbol of a content that was offered stands in the bucket of its hash value. -/
theorem mem_bucket_of_firstOffer? {calls : List TableCall} (h : firstOffer? calls s.bytes = some s) :
    s ∈ (empty.after calls).bucket s.hash := by
  rw [after_empty]
  rw [← SymbolTable.find?_after] at h
  exact List.mem_of_find?_eq_some h

end BucketTable

namespace Symbol

/-- Contents that differ in one byte have different hash values, and what follows two contents neither
causes nor removes a collision. So symbols whose contents differ in one byte stand in different buckets,
whatever else a table was offered, and offering one of them leaves the bucket of the other alone. -/
theorem hash_separates_near_contents :
    (∀ (p q : List UInt8) (x y : UInt8), x ≠ y →
      hashBytes (p ++ [x] ++ q) ≠ hashBytes (p ++ [y] ++ q)) ∧
    (∀ a b q : List UInt8, hashBytes (a ++ q) = hashBytes (b ++ q) ↔ hashBytes a = hashBytes b) ∧
    ∀ (p q : List UInt8) (x y : UInt8) (s t : Symbol), x ≠ y → s.bytes = p ++ [x] ++ q →
      t.bytes = p ++ [y] ++ q →
        (∀ calls hash hash', s ∈ (BucketTable.empty.after calls).bucket hash →
          t ∈ (BucketTable.empty.after calls).bucket hash' → hash ≠ hash') ∧
        ∀ (table : BucketTable) (call : TableCall), call.offered? = some t →
          (table.perform call).2.bucket s.hash = table.bucket s.hash := by
  have hdiffer (p q : List UInt8) (x y : UInt8) (hne : x ≠ y) :
      hashBytes (p ++ [x] ++ q) ≠ hashBytes (p ++ [y] ++ q) := mt hashBytes_replace_inj.mp hne
  refine ⟨hdiffer, fun _ _ _ => hashBytes_append_inj, fun p q x y s t hne hs ht => ?_⟩
  have hhash : s.hash ≠ t.hash := by
    rw [hash, hash, hs, ht]
    exact hdiffer p q x y hne
  refine ⟨fun calls hash hash' hbucket hbucket' hsame => hhash ?_,
    fun table call hoffer => table.bucket_perform_of_ne hoffer hhash.symm⟩
  rw [BucketTable.hash_of_mem_bucket hbucket, BucketTable.hash_of_mem_bucket hbucket', hsame]

/-- Two names that differ in the second of their letters, both of them stored. -/
theorem hash_separates_near_contents_letters :
    let s : Symbol := ⟨[0x41, 0x42, 0x43], 0⟩
    let t : Symbol := ⟨[0x41, 0x62, 0x43], 1⟩
    let table := BucketTable.empty.after [.put s, .intern t]
    hashBytes s.bytes ≠ hashBytes t.bytes ∧
      (s ∈ table.bucket s.hash ∧ t ∈ table.bucket t.hash ∧ s.hash ≠ t.hash) ∧
        ((BucketTable.empty.put s).2.intern t).2.bucket s.hash =
          (BucketTable.empty.put s).2.bucket s.hash := by
  intro s t table
  obtain ⟨hdiffer, -, hbuckets⟩ := hash_separates_near_contents
  have hseparate := hbuckets [0x41] [0x43] 0x42 0x62 s t (by decide) rfl rfl
  have hs : s ∈ table.bucket s.hash := BucketTable.mem_bucket_of_firstOffer? rfl
  have ht : t ∈ table.bucket t.hash := BucketTable.mem_bucket_of_firstOffer? rfl
  exact ⟨hdiffer [0x41] [0x43] 0x42 0x62 (by decide), ⟨hs, ht, hseparate.1 _ _ _ hs ht⟩,
    hseparate.2 (BucketTable.empty.put s).2 (.intern t) rfl⟩

end Symbol

end ClassLoading
