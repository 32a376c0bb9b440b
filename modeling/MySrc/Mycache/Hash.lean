import MySrc.Lib.Run
import Mathlib.Data.List.Nodup
import Mathlib.Logic.Function.Iterate

/-!
# MySrc.Mycache.Hash

`mycache/src/struct/hash.c`: the table of `crypt_table_init` and `hash_string`.

A character is a plain `char`, taken as signed, and is folded to upper case
before it selects a table entry, so strings that differ only in the case of
their letters have the same hashes (`hashString_congr`).  A character above 127
is negative and, for the hash type 0, selects no entry of the table at all.
-/

namespace MySrc

open Lib

/-! ## the table -/

/-- The body of the inner loop of `crypt_table_init`, on the seed and the table. -/
def cryptTableEntry (index2 : Nat) (st : BitVec 64 × List (BitVec 64)) :
    BitVec 64 × List (BitVec 64) :=
  let seed := (st.1 * 125 + 3) % 0x2AAAAB
  let temp1 := (seed &&& 0xFFFF) <<< 0x10
  let seed := (seed * 125 + 3) % 0x2AAAAB
  let temp2 := seed &&& 0xFFFF
  (seed, st.2.set index2 (temp1 ||| temp2))

/-- `crypt_table_init`: the global array, zero before. -/
def cryptTableInit : List (BitVec 64) :=
  ((List.range 0x100).foldl
    (fun st index1 => (List.range 5).foldl
      (fun st i => cryptTableEntry (index1 + i * 0x100) st) st)
    (0x00100001, List.replicate 0x500 0)).2

theorem length_cryptTableEntry (index2 : Nat) (st : BitVec 64 × List (BitVec 64)) :
    (cryptTableEntry index2 st).2.length = st.2.length := by
  simp [cryptTableEntry]

theorem length_foldl_of_step {f : BitVec 64 × List (BitVec 64) → Nat → BitVec 64 × List (BitVec 64)}
    (hf : ∀ st i, (f st i).2.length = st.2.length) (is : List Nat)
    (st : BitVec 64 × List (BitVec 64)) : (is.foldl f st).2.length = st.2.length := by
  induction is generalizing st with
  | nil => rfl
  | cons i is ih => rw [List.foldl_cons, ih, hf]

theorem length_cryptTableInit : cryptTableInit.length = 0x500 := by
  have hinner : ∀ (st : BitVec 64 × List (BitVec 64)) (index1 : Nat),
      ((List.range 5).foldl (fun st i => cryptTableEntry (index1 + i * 0x100) st) st).2.length =
        st.2.length := fun st index1 =>
    length_foldl_of_step (fun st i => length_cryptTableEntry _ st) _ st
  rw [cryptTableInit, length_foldl_of_step hinner, List.length_replicate]

/-- The slots that `crypt_table_init` writes, one after the other. -/
def cryptTableWrites : List Nat :=
  (List.range 0x100).flatMap fun index1 => (List.range 5).map fun i => index1 + i * 0x100

/-- The nested loops write the listed entries in order. -/
theorem cryptTableInit_eq_foldl :
    cryptTableInit = (cryptTableWrites.foldl (fun st index2 => cryptTableEntry index2 st)
      (0x00100001, List.replicate 0x500 0)).2 := by
  simp only [cryptTableInit, cryptTableWrites, List.foldl_flatMap, List.foldl_map]

theorem mem_cryptTableWrites (slot : Nat) : slot ∈ cryptTableWrites ↔ slot < 0x500 := by
  simp only [cryptTableWrites, List.mem_flatMap, List.mem_map, List.mem_range]
  constructor
  · rintro ⟨index1, hindex1, i, hi, rfl⟩
    omega
  · intro hslot
    exact ⟨slot % 0x100, by omega, slot / 0x100, by omega, by omega⟩

theorem nodup_cryptTableWrites : cryptTableWrites.Nodup := by
  rw [cryptTableWrites, List.nodup_flatMap]
  constructor
  · intro index1 _
    refine List.nodup_range.map fun i j hij => ?_
    omega
  · -- the slots of two columns differ modulo `0x100`
    refine List.nodup_range.imp_of_mem fun {a b} ha hb hab slot hslot hslot' => ?_
    simp only [List.mem_map, List.mem_range] at ha hb hslot hslot'
    obtain ⟨i, -, rfl⟩ := hslot
    obtain ⟨j, -, hij⟩ := hslot'
    omega

/-! ## its entries -/

section

/-- The seed that follows. -/
def nextSeed (seed : BitVec 64) : BitVec 64 := (seed * 125 + 3) % 0x2AAAAB

/-- The entry of a seed, `temp1 | temp2`. -/
def entryOfSeed (seed : BitVec 64) : BitVec 64 :=
  (nextSeed seed &&& 0xFFFF) <<< 0x10 ||| (nextSeed (nextSeed seed) &&& 0xFFFF)

/-- An entry takes two steps of the seed. -/
theorem cryptTableEntry_eq (index2 : Nat) (st : BitVec 64 × List (BitVec 64)) :
    cryptTableEntry index2 st = (nextSeed^[2] st.1, st.2.set index2 (entryOfSeed st.1)) := rfl

variable {writes : List Nat} {slot n : Nat}

/-- Later writes leave a slot that is none of theirs. -/
theorem getElem?_foldl_cryptTableEntry_of_notMem (hslot : slot ∉ writes)
    (st : BitVec 64 × List (BitVec 64)) :
    (writes.foldl (fun st index2 => cryptTableEntry index2 st) st).2[slot]? = st.2[slot]? := by
  induction writes generalizing st with
  | nil => rfl
  | cons index2 writes ih =>
      obtain ⟨hne, hrest⟩ := not_or.mp (List.mem_cons.not.mp hslot)
      rw [List.foldl_cons, ih hrest, cryptTableEntry_eq, List.getElem?_set_ne (Ne.symm hne)]

/-- The slot that is written as the `n`-th holds the entry of the seed after `2 * n` draws. -/
theorem getElem?_foldl_cryptTableEntry (hn : writes[n]? = some slot) (hnodup : writes.Nodup)
    (st : BitVec 64 × List (BitVec 64)) (hslot : slot < st.2.length) :
    (writes.foldl (fun st index2 => cryptTableEntry index2 st) st).2[slot]? =
      some (entryOfSeed (nextSeed^[2 * n] st.1)) := by
  induction writes generalizing n st with
  | nil => simp at hn
  | cons index2 writes ih =>
      obtain ⟨hnotMem, hrest⟩ := List.nodup_cons.mp hnodup
      rw [List.foldl_cons]
      cases n with
      | zero =>
          obtain rfl : index2 = slot := by simpa using hn
          rw [getElem?_foldl_cryptTableEntry_of_notMem hnotMem, cryptTableEntry_eq,
            List.getElem?_set_self hslot]
          rfl
      | succ n =>
          rw [ih hn hrest _ (by rwa [length_cryptTableEntry]), cryptTableEntry_eq,
            ← Function.iterate_add_apply]
          rfl

/-- The value of the entry that is written at a turn. -/
theorem getElem?_cryptTableInit (hn : cryptTableWrites[n]? = some slot) :
    cryptTableInit[slot]? = some (entryOfSeed (nextSeed^[2 * n] 0x00100001)) := by
  have hslot : slot < 0x500 := (mem_cryptTableWrites slot).mp (List.mem_of_getElem? hn)
  rw [cryptTableInit_eq_foldl]
  exact getElem?_foldl_cryptTableEntry hn nodup_cryptTableWrites _
    (by rwa [List.length_replicate])

end

/-! ## the hash -/

/-- The value of a byte read through a plain `char`. -/
def charOf (b : UInt8) : Int := if b.toNat < 128 then b.toNat else (b.toNat : Int) - 256

/-- `toupper`, which leaves alone what is not a lower-case letter. -/
def toupper (c : Int) : Int := if 97 ≤ c ∧ c ≤ 122 then c - 32 else c

/-- `crypt_table[i]` -/
def tableAt (table : List (BitVec 64)) (i : Int) : Except Fault (BitVec 64) :=
  if i < 0 then .error .outOfBounds
  else
    match table[i.toNat]? with
    | none => .error .outOfBounds
    | some x => .ok x

/-- The loop of `hash_string`. -/
def hashLoop (table : List (BitVec 64)) (hashType : Nat) :
    List UInt8 → BitVec 64 → BitVec 64 → Except Fault (BitVec 64)
  | [], seed1, _ => .ok seed1
  | b :: bs, seed1, seed2 => do
      let ch := toupper (charOf b)
      let x ← tableAt table ((hashType <<< 8 : Nat) + ch)
      let seed1 := x ^^^ (seed1 + seed2)
      let seed2 := BitVec.ofInt 64 ch + seed1 + seed2 + (seed2 <<< 5) + 3
      hashLoop table hashType bs seed1 seed2

/-- `hash_string(cstring, stringlen, hash_type)`, where `stringlen` is the length of
`cstring`; the loop counter is an `int`. -/
def hashString (table : List (BitVec 64)) (cstring : List UInt8) (hashType : Nat) :
    Except Fault (BitVec 64) := do
  let seed1 ← hashLoop table hashType (cstring.take (2 ^ 31)) 0x7FED7FED 0xEEEEEEEE
  if cstring.length < 2 ^ 31 then return seed1 else .error .overflow

/-- A character that is not negative picks one entry. -/
theorem hashString_singleton {slot : Nat}
    (hslot : (hashType <<< 8 : Nat) + toupper (charOf b) = slot) (hx : table[slot]? = some x) :
    hashString table [b] hashType = .ok (x ^^^ (0x7FED7FED + 0xEEEEEEEE)) := by
  have hat : tableAt table slot = .ok x := by
    rw [tableAt, if_neg (by omega), Int.toNat_natCast, hx]
  rw [hashString, List.take_of_length_le (by simp), hashLoop, hslot, hat, ok_bind]
  rfl

/-- The loop sees a character only in upper case. -/
theorem hashLoop_congr
    (h : xs.map (fun b => toupper (charOf b)) = ys.map fun b => toupper (charOf b))
    (table : List (BitVec 64)) (hashType : Nat) (seed1 seed2 : BitVec 64) :
    hashLoop table hashType xs seed1 seed2 = hashLoop table hashType ys seed1 seed2 := by
  induction xs generalizing ys seed1 seed2 with
  | nil =>
      obtain rfl : ys = [] := by simpa using h.symm
      rfl
  | cons x xs ih =>
      cases ys with
      | nil => simp at h
      | cons y ys =>
          simp only [List.map_cons, List.cons.injEq] at h
          simp only [hashLoop, h.1, ih h.2]

/-- Strings that differ only in the case of their letters have the same hash. -/
theorem hashString_congr
    (h : xs.map (fun b => toupper (charOf b)) = ys.map fun b => toupper (charOf b))
    (table : List (BitVec 64)) (hashType : Nat) :
    hashString table xs hashType = hashString table ys hashType := by
  have hlen : xs.length = ys.length := by simpa using congrArg List.length h
  have htake : (xs.take (2 ^ 31)).map (fun b => toupper (charOf b)) =
      (ys.take (2 ^ 31)).map fun b => toupper (charOf b) := by
    rw [List.map_take, List.map_take, h]
  rw [hashString, hashString, hashLoop_congr htake, hlen]

/-- A character up to 127 selects an entry of its part of the table. -/
theorem tableAt_ok {table : List (BitVec 64)} (hlen : table.length = 0x500) (ht : hashType ≤ 4)
    (hb : b.toNat < 128) :
    ∃ x, tableAt table ((hashType <<< 8 : Nat) + toupper (charOf b)) = .ok x := by
  have hch : 0 ≤ toupper (charOf b) ∧ toupper (charOf b) < 128 := by
    simp only [charOf, if_pos hb, toupper]
    split <;> omega
  have hidx : ((hashType <<< 8 : Nat) + toupper (charOf b)).toNat < table.length := by
    rw [Nat.shiftLeft_eq, hlen]
    omega
  refine ⟨table[((hashType <<< 8 : Nat) + toupper (charOf b)).toNat], ?_⟩
  rw [tableAt, if_neg (by omega), List.getElem?_eq_getElem hidx]

/-- Every ASCII string has its hashes. -/
theorem hashString_ok {table : List (BitVec 64)} (hlen : table.length = 0x500) (ht : hashType ≤ 4)
    (hascii : ∀ b ∈ cstring, b.toNat < 128) (hshort : cstring.length < 2 ^ 31) :
    ∃ x, hashString table cstring hashType = .ok x := by
  have hloop : ∀ (bs : List UInt8), (∀ b ∈ bs, b.toNat < 128) → ∀ seed1 seed2,
      ∃ x, hashLoop table hashType bs seed1 seed2 = .ok x := by
    intro bs
    induction bs with
    | nil => exact fun _ seed1 _ => ⟨seed1, rfl⟩
    | cons b bs ih =>
        intro hbs seed1 seed2
        obtain ⟨x, hx⟩ := tableAt_ok hlen ht (hbs b List.mem_cons_self)
        rw [hashLoop, hx, ok_bind]
        exact ih (fun b hb => hbs b (List.mem_cons_of_mem _ hb)) _ _
  obtain ⟨x, hx⟩ := hloop _ (fun b hb => hascii b (List.mem_of_mem_take hb)) 0x7FED7FED 0xEEEEEEEE
  exact ⟨x, by rw [hashString, hx, ok_bind, if_pos hshort]; rfl⟩

/-! ## inside the table -/

/-- A read is out of bounds exactly when its index is. -/
theorem tableAt_eq_error_iff {table : List (BitVec 64)} {i : Int} :
    tableAt table i = .error .outOfBounds ↔ i < 0 ∨ table.length ≤ i := by
  unfold tableAt
  by_cases hneg : i < 0
  · simp [hneg]
  · rw [if_neg hneg]
    by_cases hlt : i.toNat < table.length
    · rw [List.getElem?_eq_getElem hlt]
      simp only [reduceCtorEq, false_iff]
      omega
    · rw [List.getElem?_eq_none (by omega)]
      simp only [true_iff]
      omega

/-- The loop leaves the table at the first character whose index is outside. -/
theorem hashLoop_ne_outOfBounds_iff (table : List (BitVec 64)) (hashType : Nat) (bs : List UInt8)
    (seed1 seed2 : BitVec 64) :
    hashLoop table hashType bs seed1 seed2 ≠ .error .outOfBounds ↔
      ∀ b ∈ bs, tableAt table ((hashType <<< 8 : Nat) + toupper (charOf b)) ≠
        .error .outOfBounds := by
  induction bs generalizing seed1 seed2 with
  | nil => simp [hashLoop]
  | cons b bs ih =>
      rw [hashLoop, List.forall_mem_cons]
      cases hx : tableAt table ((hashType <<< 8 : Nat) + toupper (charOf b)) with
      | error e =>
          have he : e = .outOfBounds := by
            unfold tableAt at hx
            split at hx
            · cases hx
              rfl
            · split at hx
              · cases hx
                rfl
              · cases hx
          subst he
          simp only [ne_eq, not_true_eq_false, false_and, iff_false, not_not]
          rfl
      | ok x =>
          rw [ok_bind, ih]
          simp

/-- `toupper` keeps the sign of a character. -/
theorem toupper_charOf (b : UInt8) :
    -128 ≤ toupper (charOf b) ∧ toupper (charOf b) < 128 ∧
      (0 ≤ toupper (charOf b) ↔ b.toNat < 128) := by
  have hb := b.toNat_lt
  unfold toupper charOf
  split <;> split <;> omega

/-- `crypt_table_init` is these writes, and each slot of the table gets one. -/
def WrittenOnce : Prop :=
  cryptTableInit = (cryptTableWrites.foldl (fun st index2 => cryptTableEntry index2 st)
      (0x00100001, List.replicate 0x500 0)).2 ∧
    ∀ slot, cryptTableWrites.count slot = if slot < 0x500 then 1 else 0

/-- **The table is written once**, entry by entry. -/
theorem writtenOnce : WrittenOnce := by
  refine ⟨cryptTableInit_eq_foldl, fun slot => ?_⟩
  rw [nodup_cryptTableWrites.count]
  simp only [mem_cryptTableWrites]

/-- The index of a character is in the table unless the hash type is 0 and the character
negative. -/
theorem index_in_table_iff (hashType : Fin 3) (b : UInt8) :
    tableAt cryptTableInit ((hashType.val <<< 8 : Nat) + toupper (charOf b)) ≠
        .error .outOfBounds ↔
      hashType ≠ 0 ∨ b.toNat < 128 := by
  obtain ⟨hlo, hhi, hsign⟩ := toupper_charOf b
  rw [ne_eq, tableAt_eq_error_iff, length_cryptTableInit, ← hsign, Nat.shiftLeft_eq, ne_eq,
    Fin.ext_iff]
  have ht := hashType.isLt
  simp only [Fin.val_zero]
  omega

/-- **`hash_string` stays inside the table** exactly when the hash type is not 0 or
no character that is read is above 127; `crypt_table_init` writes every slot of it
once. -/
theorem hash_string_in_table_iff (cstring : List UInt8) (hashType : Fin 3) :
    (hashString cryptTableInit cstring hashType ≠ .error .outOfBounds ∧ WrittenOnce) ↔
      hashType ≠ 0 ∨ ∀ b ∈ cstring.take (2 ^ 31), b.toNat < 128 := by
  have hcut : hashString cryptTableInit cstring hashType ≠ .error .outOfBounds ↔
      hashLoop cryptTableInit hashType (cstring.take (2 ^ 31)) 0x7FED7FED 0xEEEEEEEE ≠
        .error .outOfBounds := by
    unfold hashString
    cases hashLoop cryptTableInit hashType (cstring.take (2 ^ 31)) 0x7FED7FED 0xEEEEEEEE with
    | error e => rfl
    | ok x =>
        rw [ok_bind]
        split <;> simp
  rw [hcut, hashLoop_ne_outOfBounds_iff]
  simp only [index_in_table_iff, writtenOnce, and_true]
  by_cases htype : hashType = 0
  · simp [htype]
  · simp [htype]

/-- The character `\xff` selects the entry -1 for the hash type 0. -/
theorem hash_string_out_of_table :
    ¬ ∀ (cstring : List UInt8) (hashType : Fin 3),
        hashString cryptTableInit cstring hashType ≠ .error .outOfBounds ∧ WrittenOnce := by
  intro h
  refine (h [0xFF] 0).1 ?_
  have hindex : tableAt cryptTableInit (((0 : Fin 3).val <<< 8 : Nat) + toupper (charOf 0xFF)) =
      .error .outOfBounds := tableAt_eq_error_iff.mpr (.inl (by decide))
  rw [hashString, List.take_of_length_le (by simp), hashLoop, hindex]
  rfl

end MySrc
