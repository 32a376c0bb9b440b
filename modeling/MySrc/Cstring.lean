import MySrc.Lib.Logged
import MySrc.Lib.Memory
import MySrc.CxxUtils.ConfigFile

/-!
# MySrc.Cstring

`cstring/cstring.h`: strings in one block of memory with a reference count and
a length that counts the terminating NUL.

A byte of a block that was never written is `none`.  Every write into the value
of a string is logged with the `strlen` of the string, so that a write past the
last of these bytes shows even where the padding of the header still has room
for it.  `malloc` and `realloc` are taken to succeed.

`cstring_correct_iff` is about every string that the four constructors can
build.
-/

namespace MySrc

open Lib

/-- `CSTRING_SIZE`, which is `sizeof(cstring)`. -/
def cstringSize : Nat := 16

/-- The offset of `value` in a `cstring`.  The header is padded, so it lies before the
end of the header. -/
def valueOffset : Nat := 12

/-- `struct cstring`, with the bytes of its block from `value` on. -/
structure Cstring where
  refcount : Int
  strlen : Nat
  value : List (Option UInt8)
  deriving DecidableEq

/-- Bytes written to `value[index]` and on, in a string with this `strlen`. -/
structure Write where
  index : Nat
  count : Nat
  strlen : Nat

/-- The write stays inside the `strlen` bytes of the value. -/
def Write.Inside (w : Write) : Prop := w.index + w.count ≤ w.strlen

namespace Cstring

/-! ## the code -/

/-- `(cstring *)malloc(size)`, with the first two fields as the code sets them next. -/
def malloc (size : Nat) (refcount : Int) (strlen : Nat) : Cstring :=
  ⟨refcount, strlen, List.replicate (size - valueOffset) none⟩

/-- `(cstring *)realloc(p, size)`, with the first two fields as the code sets them next. -/
def realloc (p : Cstring) (size : Nat) (refcount : Int) (strlen : Nat) : Cstring :=
  let kept := p.value.take (size - valueOffset)
  ⟨refcount, strlen, kept ++ List.replicate (size - valueOffset - kept.length) none⟩

/-- Write into the value of a string. -/
def write (p : Cstring) (index : Nat) (bytes : List (Option UInt8)) : Logged Write Cstring where
  log := [⟨index, bytes.length, p.strlen⟩]
  result := (memcpyTo p.value index bytes).map fun value => { p with value }

/-- `cstring_free`, which `_shared_ptr_` calls at the end of a scope.  A block that is
freed here is about to be returned. -/
def leaveScope (p : Cstring) : Except Fault Cstring :=
  if p.refcount = 1 then .error .dangling else .ok { p with refcount := p.refcount - 1 }

/-- `new_string` -/
def newString (pcstr : Option (List (Option UInt8))) (index len : Nat) :
    Logged Write (Option Cstring) :=
  match pcstr with
  | none => pure none
  | some pcstr =>
      if index > 0xfffffff ∨ len > 0xfffffff then pure none
      else do
        let p := malloc (cstringSize + len + 1) 2 (len + 1)
        let bytes ← Logged.lift (memcpyFrom pcstr index len)
        let p ← write p 0 bytes
        let p ← write p len [some 0]
        let p ← Logged.lift (leaveScope p)
        return some p

/-- `at` -/
def at_ (p : Option Cstring) (pos : Int) : Except Fault UInt8 :=
  match p with
  | none => .ok 0
  | some p =>
      if pos < 0 ∨ (p.strlen : Int) ≤ pos then .ok 0
      else
        match p.value[pos.toNat]? with
        | none => .error .outOfBounds
        | some none => .error .uninitialised
        | some (some c) => .ok c

/-- `n - 1` on a `uint32_t`. -/
@[irreducible]
def pred32 (n : Nat) : Nat := (n + 2 ^ 32 - 1) % 2 ^ 32

/-- `length` -/
def length (p : Cstring) : Nat := pred32 p.strlen

/-- `substr` -/
def substr (p : Option Cstring) (pos num : Nat) : Logged Write (Option Cstring) :=
  match p with
  | none => Logged.lift (.error .nullDeref)
  | some p => do
      match ← newString (some p.value) pos num with
      | none => Logged.lift (.error .nullDeref)
      | some newp =>
          let curref := newp.refcount
          let newp := { newp with refcount := newp.refcount + 1 }
          let newp ← Logged.lift (leaveScope newp)
          if 1 > curref then return none else return some newp

/-- The copies of `append` into the new block, of `plen` and `iplen` bytes. -/
def appendInto (newp p ip : Cstring) (newstrlen plen iplen : Nat) :
    Logged Write (Option Cstring) := do
  let bytes ← Logged.lift (memcpyFrom p.value 0 plen)
  let newp ← write newp 0 bytes
  let bytes ← Logged.lift (memcpyFrom ip.value 0 iplen)
  let newp ← write newp plen bytes
  let newp ← write newp newstrlen [some 0]
  let newp ← Logged.lift (leaveScope newp)
  return some newp

/-- `append` -/
def append (p ip : Option Cstring) : Logged Write (Option Cstring) :=
  match p, ip with
  | some p, some ip =>
      let newstrlen := pred32 (p.strlen + ip.strlen)
      let newp := malloc (cstringSize + newstrlen) 2 newstrlen
      appendInto newp p ip newstrlen (pred32 p.strlen) (pred32 ip.strlen)
  | _, _ => Logged.lift (.error .nullDeref)

/-- The copy of `append_realloc` into the block that has grown, of `iplen` bytes behind
`plen`. -/
def appendBehind (p ip : Cstring) (plen iplen : Nat) : Logged Write (Option Cstring) := do
  let bytes ← Logged.lift (memcpyFrom ip.value 0 iplen)
  let p ← write p plen bytes
  let p ← write p p.strlen [some 0]
  return some p

/-- `append_realloc`, where `ip` is not `p`. -/
def appendRealloc (p ip : Option Cstring) : Logged Write (Option Cstring) :=
  match p, ip with
  | some p, some ip =>
      let plen := p.strlen
      let iplen := ip.strlen
      let p := realloc p (cstringSize + plen + iplen - 1) 1 (pred32 (plen + iplen))
      appendBehind p ip (pred32 plen) (pred32 iplen)
  | _, _ => Logged.lift (.error .nullDeref)

/-- `c_str` -/
def cStr (p : Option Cstring) : Option (List (Option UInt8)) := p.map (·.value)

/-- Read a C string from memory, up to its NUL. -/
def readCStr : List (Option UInt8) → Except Fault Str
  | [] => .error .outOfBounds
  | none :: _ => .error .uninitialised
  | some c :: mem => if c = 0 then .ok [] else (readCStr mem).map (c :: ·)

/-! ## the representation -/

/-- The string `p` represents `s`: its block is as large as its `strlen` says, the value
is `s` and a NUL, and one reference is left. -/
structure Holds (p : Cstring) (s : Str) : Prop where
  strlen : p.strlen = s.length + 1
  block : valueOffset + p.value.length = cstringSize + p.strlen
  bytes : p.value.take p.strlen = (s ++ [0]).map some
  refcount : p.refcount = 1

/-- The observers of `p` agree with `s`. -/
structure Shows (p : Cstring) (s : Str) : Prop where
  at_ : ∀ pos : Int, at_ (some p) pos =
    .ok (if 0 ≤ pos ∧ pos < s.length then s.getD pos.toNat 0 else 0)
  length : p.length = s.length
  cStr : ∃ mem, cStr (some p) = some mem ∧ readCStr mem = .ok (MySrc.cStr s)

section

variable {p : Cstring} {s : Str}

theorem pred32_succ {n : Nat} (h : n < 2 ^ 32) : pred32 (n + 1) = n := by
  unfold pred32
  omega

/-- A C string is read up to its NUL. -/
theorem readCStr_append (s : Str) (mem : List (Option UInt8)) :
    readCStr ((s ++ [0]).map some ++ mem) = .ok (MySrc.cStr s) := by
  induction s with
  | nil => rfl
  | cons c s ih =>
      simp only [List.cons_append, List.map_cons, readCStr]
      by_cases hc : c = 0
      · simp [hc, MySrc.cStr]
      · rw [if_neg hc, ih]
        simp [hc, MySrc.cStr, Except.map]

/-- The memory of a string: its text, a NUL, and what is behind. -/
theorem Holds.value_eq (h : Holds p s) :
    p.value = (s ++ [0]).map some ++ p.value.drop p.strlen := by
  rw [← h.bytes, List.take_append_drop]

/-- A string that holds a text shows it. -/
theorem Holds.shows (h : Holds p s) (hs : s.length < 2 ^ 32) : Shows p s where
  at_ pos := by
    have hstrlen := h.strlen
    rw [at_]
    split
    · next hpos => simp [show ¬ (0 ≤ pos ∧ pos < s.length) by omega]
    · next hpos =>
        have hlt : pos.toNat < (s ++ [0]).length := by simp; omega
        have hget : p.value[pos.toNat]? = some (some (s ++ [0])[pos.toNat]) := by
          rw [h.value_eq, List.getElem?_append_left (by simpa using hlt), List.getElem?_map,
            List.getElem?_eq_getElem hlt]
          rfl
        rw [hget]
        by_cases hin : pos < s.length
        · have hlt' : pos.toNat < s.length := by omega
          simp [show 0 ≤ pos by omega, hin, List.getElem_append_left hlt']
        · have heq : pos.toNat = s.length := by omega
          simp [hin, heq]
  length := by rw [Cstring.length, h.strlen, pred32_succ hs]
  cStr := by
    refine ⟨p.value, rfl, ?_⟩
    rw [h.value_eq]
    exact readCStr_append s _

/-- A write inside the block. -/
theorem write_returns {index : Nat} {bytes : List (Option UInt8)}
    (hin : index + bytes.length ≤ p.strlen) (hblock : p.strlen ≤ p.value.length) :
    (p.write index bytes).Returns Write.Inside { p with value := splice p.value index bytes } := by
  refine ⟨by simpa [write, Write.Inside] using hin, ?_⟩
  rw [write, memcpyTo_eq_splice (by omega)]
  rfl

theorem strlen_of_write {index : Nat} {bytes : List (Option UInt8)} {p' : Cstring}
    (h : (p.write index bytes).Returns Write.Inside p') : p'.strlen = p.strlen := by
  have hres := h.2
  rw [write] at hres
  cases hm : memcpyTo p.value index bytes with
  | error e =>
      rw [hm] at hres
      cases hres
  | ok value =>
      rw [hm] at hres
      cases hres
      rfl

/-- Bytes and a NUL behind them, written one after the other, are one write. -/
theorem splice_terminated (hvalue : s.length < p.value.length) :
    splice (splice p.value 0 (s.map some)) s.length [some 0] =
      splice p.value 0 ((s ++ [0]).map some) := by
  have hfit : 0 + (s.map some).length ≤ p.value.length := by
    simp
    omega
  have hsplice : splice (splice p.value 0 (s.map some)) (0 + (s.map some).length) [some 0] =
      splice p.value 0 (s.map some ++ [some 0]) := splice_splice hfit
  simpa using hsplice

/-- A string that was written from the front. -/
theorem holds_splice (hstrlen : p.strlen = s.length + 1)
    (hblock : valueOffset + p.value.length = cstringSize + p.strlen) (href : p.refcount = 1) :
    Holds { p with value := splice p.value 0 ((s ++ [0]).map some) } s where
  strlen := hstrlen
  block := by
    have hsize : valueOffset ≤ cstringSize := by decide
    rw [length_splice (by simp; omega)]
    exact hblock
  bytes := by
    have hlen : ((s ++ [0]).map some).length = p.strlen := by simp [hstrlen]
    simp only [splice, List.take_zero, List.nil_append]
    exact List.take_left' hlen
  refcount := href

/-- **`new_string`** copies `len` bytes and terminates them. -/
theorem newString_holds {pcstr : List (Option UInt8)} {index : Nat}
    (hindex : index ≤ 0xfffffff) (hlen : s.length ≤ 0xfffffff)
    (hfrom : memcpyFrom pcstr index s.length = .ok (s.map some)) :
    ∃ p, (newString (some pcstr) index s.length).Returns Write.Inside (some p) ∧ Holds p s := by
  obtain ⟨p, hp⟩ : ∃ p, malloc (cstringSize + s.length + 1) 2 (s.length + 1) = p := ⟨_, rfl⟩
  have hstrlen : p.strlen = s.length + 1 := by rw [← hp]; rfl
  have href : p.refcount = 2 := by rw [← hp]; rfl
  have hvalue : p.value.length = s.length + 5 := by
    rw [← hp]
    simp [malloc, cstringSize, valueOffset]
    omega
  have hsplice : (splice p.value 0 (s.map some)).length = s.length + 5 := by
    rw [length_splice (by simp; omega), hvalue]
  refine ⟨{ p with refcount := 1, value := splice p.value 0 ((s ++ [0]).map some) }, ?_, ?_⟩
  · rw [newString, if_neg (by omega), hp]
    refine (Logged.returns_lift hfrom).bind ?_
    refine (write_returns (by simp; omega) (by omega)).bind ?_
    refine (write_returns (by simp; omega) (by simp; omega)).bind ?_
    refine (Logged.returns_lift (a := { p with
      refcount := 1, value := splice p.value 0 ((s ++ [0]).map some) }) ?_).bind
      (Logged.returns_pure _)
    rw [leaveScope, splice_terminated (by omega)]
    simp [href]
  · refine holds_splice (p := { p with refcount := 1 }) hstrlen ?_ rfl
    simp [hvalue, hstrlen, valueOffset, cstringSize]
    omega

/-- The bytes of a string can be copied out of its block. -/
theorem Holds.memcpyFrom (h : Holds p s) {pos num : Nat} (hnum : pos + num ≤ s.length) :
    memcpyFrom p.value pos num = .ok (((s.drop pos).take num).map some) := by
  have hle : pos + num ≤ p.value.length := by
    rw [h.value_eq]
    simp
    omega
  have hdrop : (p.value.drop pos).take num = ((s.drop pos).take num).map some := by
    rw [h.value_eq, List.map_append, List.append_assoc,
      List.drop_append_of_le_length (by simp; omega),
      List.take_append_of_le_length (by simp; omega), List.map_take, List.map_drop]
  rw [Lib.memcpyFrom, if_pos hle, hdrop]

/-- **`substr`** of a string takes the bytes from `pos` on. -/
theorem substr_holds (h : Holds p s) {pos num : Nat} (hnum : pos + num ≤ s.length)
    (hs : s.length ≤ 0xfffffff) :
    ∃ p', (substr (some p) pos num).Returns Write.Inside (some p') ∧
      Holds p' ((s.drop pos).take num) := by
  have hfrom := h.memcpyFrom hnum
  have hlen : ((s.drop pos).take num).length = num := by
    simp
    omega
  generalize (s.drop pos).take num = sub at hfrom hlen ⊢
  subst hlen
  obtain ⟨newp, hnew, hholds⟩ := newString_holds (by omega) (by omega) hfrom
  refine ⟨newp, ?_, hholds⟩
  refine hnew.bind ?_
  have hleave : leaveScope { newp with refcount := newp.refcount + 1 } = .ok newp := by
    have hone := hholds.refcount
    rw [leaveScope, if_neg (by simp only; omega)]
    simp
  refine (Logged.returns_lift hleave).bind ?_
  have hcurref : ¬ 1 > newp.refcount := by
    rw [hholds.refcount]
    omega
  rw [if_neg hcurref]
  exact Logged.returns_pure _

/-- A write at `value[strlen]` is outside. -/
theorem not_inside_end {index : Nat} {bytes : List (Option UInt8)} (hindex : index = p.strlen)
    {p' : Cstring} : ¬ (p.write index (some 0 :: bytes)).Returns Write.Inside p' := by
  intro h
  have hin := h.1 _ (List.mem_singleton.mpr rfl)
  simp only [Write.Inside, List.length_cons] at hin
  omega

theorem not_clean_error {e : Fault} :
    ¬ (Logged.lift (.error e) : Logged Write (Option Cstring)).Clean Write.Inside := by
  rintro ⟨a, -, h⟩
  cases h

/-- **`append`** always writes its NUL outside. -/
theorem appendInto_not_clean {newp ip : Cstring} {newstrlen plen iplen : Nat}
    (hstrlen : newp.strlen = newstrlen) :
    ¬ (appendInto newp p ip newstrlen plen iplen).Clean Write.Inside := by
  intro h
  unfold appendInto at h
  obtain ⟨_, -, h⟩ := h.of_bind
  obtain ⟨p₁, hw₁, h⟩ := h.of_bind
  obtain ⟨_, -, h⟩ := h.of_bind
  obtain ⟨p₂, hw₂, h⟩ := h.of_bind
  obtain ⟨p₃, hw₃, -⟩ := h.of_bind
  have hstrlen₂ : p₂.strlen = newstrlen := by
    rw [strlen_of_write hw₂, strlen_of_write hw₁, hstrlen]
  exact not_inside_end hstrlen₂.symm hw₃

/-- **`append_realloc`** does so too. -/
theorem appendBehind_not_clean {ip : Cstring} {plen iplen : Nat} :
    ¬ (appendBehind p ip plen iplen).Clean Write.Inside := by
  intro h
  unfold appendBehind at h
  obtain ⟨_, -, h⟩ := h.of_bind
  obtain ⟨p₁, hw₁, h⟩ := h.of_bind
  obtain ⟨p₂, hw₂, -⟩ := h.of_bind
  exact not_inside_end rfl hw₂

/-- `append` never stays inside its memory. -/
theorem append_not_clean (p ip : Option Cstring) : ¬ (append p ip).Clean Write.Inside := by
  match p, ip with
  | none, _ => exact not_clean_error
  | some _, none => exact not_clean_error
  | some p, some ip => exact appendInto_not_clean rfl

/-- `append_realloc` never does either. -/
theorem appendRealloc_not_clean (p ip : Option Cstring) :
    ¬ (appendRealloc p ip).Clean Write.Inside := by
  match p, ip with
  | none, _ => exact not_clean_error
  | some _, none => exact not_clean_error
  | some p, some ip => exact appendBehind_not_clean

end

/-! ## strings that are built -/

/-- A string built with the four constructors. -/
inductive Build
  | newString (pcstr : Str) (index len : Nat)
  | substr (p : Build) (pos num : Nat)
  | append (p ip : Build)
  | appendRealloc (p ip : Build)

namespace Build

/-- The calls that build the string. -/
def run : Build → Logged Write (Option Cstring)
  | .newString pcstr index len => Cstring.newString (some (pcstr.map some)) index len
  | .substr p pos num => do
      let p ← p.run
      Cstring.substr p pos num
  | .append p ip => do
      let p ← p.run
      let ip ← ip.run
      Cstring.append p ip
  | .appendRealloc p ip => do
      let p ← p.run
      let ip ← ip.run
      Cstring.appendRealloc p ip

/-- The string that the calls stand for. -/
def text : Build → Str
  | .newString pcstr index len => (pcstr.drop index).take len
  | .substr p pos num => (p.text.drop pos).take num
  | .append p ip => p.text ++ ip.text
  | .appendRealloc p ip => p.text ++ ip.text

/-- The arguments are those of a string: `new_string` gets a buffer with the bytes it is
to copy and does not refuse their number, `substr` stays inside its string. -/
def Valid : Build → Prop
  | .newString pcstr index len =>
      index ≤ 0xfffffff ∧ len ≤ 0xfffffff ∧ index + len ≤ pcstr.length
  | .substr p pos num => p.Valid ∧ pos + num ≤ p.text.length
  | .append p ip => p.Valid ∧ ip.Valid
  | .appendRealloc p ip => p.Valid ∧ ip.Valid

/-- No string is appended to another one. -/
def AppendFree : Build → Prop
  | .newString _ _ _ => True
  | .substr p _ _ => p.AppendFree
  | .append _ _ => False
  | .appendRealloc _ _ => False

/-- The string is built with writes inside its values only, and represents its text. -/
def Correct (b : Build) : Prop :=
  ∃ p, b.run.Returns Write.Inside (some p) ∧ Holds p b.text ∧ Shows p b.text

/-- Without appending, strings stay as short as `new_string` wants them. -/
theorem length_text {b : Build} (hvalid : b.Valid) (hfree : b.AppendFree) :
    b.text.length ≤ 0xfffffff := by
  induction b with
  | newString pcstr index len =>
      simp only [Valid] at hvalid
      simp [text]
      omega
  | substr p pos num ih =>
      have hp := ih hvalid.1 hfree
      simp [text]
      omega
  | append p ip => exact hfree.elim
  | appendRealloc p ip => exact hfree.elim

/-- A build without `append` holds its text. -/
theorem holds_of_appendFree {b : Build} (hvalid : b.Valid) (hfree : b.AppendFree) :
    ∃ p, b.run.Returns Write.Inside (some p) ∧ Holds p b.text := by
  induction b with
  | newString pcstr index len =>
      obtain ⟨hindex, hlen, hle⟩ := hvalid
      have hlength : ((pcstr.drop index).take len).length = len := by
        simp
        omega
      have hfrom : memcpyFrom (pcstr.map some) index len =
          .ok (((pcstr.drop index).take len).map some) := by
        rw [memcpyFrom, if_pos (by simpa using hle), List.map_take, List.map_drop]
      simp only [run, text]
      generalize (pcstr.drop index).take len = s at hlength hfrom ⊢
      subst hlength
      exact newString_holds hindex hlen hfrom
  | substr p pos num ih =>
      obtain ⟨q, hq, hholds⟩ := ih hvalid.1 hfree
      obtain ⟨q', hq', hholds'⟩ := substr_holds hholds hvalid.2 (length_text hvalid.1 hfree)
      exact ⟨q', hq.bind hq', hholds'⟩
  | append p ip => exact hfree.elim
  | appendRealloc p ip => exact hfree.elim

/-- A build that stays inside its memory has no `append`. -/
theorem appendFree_of_clean {b : Build} (h : b.run.Clean Write.Inside) : b.AppendFree := by
  induction b with
  | newString pcstr index len => trivial
  | substr p pos num ih => exact ih h.left
  | append p ip =>
      obtain ⟨q, -, h⟩ := h.of_bind
      obtain ⟨iq, -, h⟩ := h.of_bind
      exact append_not_clean q iq h
  | appendRealloc p ip =>
      obtain ⟨q, -, h⟩ := h.of_bind
      obtain ⟨iq, -, h⟩ := h.of_bind
      exact appendRealloc_not_clean q iq h

/-- **Strings**: a string is built inside its blocks, terminated, counted once and equal
to its text exactly when nothing was appended on the way. -/
theorem cstring_correct_iff {b : Build} (hvalid : b.Valid) : b.Correct ↔ b.AppendFree := by
  constructor
  · rintro ⟨p, hrun, -⟩
    exact appendFree_of_clean hrun.clean
  · intro hfree
    obtain ⟨p, hrun, hholds⟩ := holds_of_appendFree hvalid hfree
    have hlen := length_text hvalid hfree
    exact ⟨p, hrun, hholds, hholds.shows (by omega)⟩

/-- `substr(new_string("abc", 0, 3), 1, 1)` -/
theorem cstring_correct_abc : Correct (.substr (.newString [97, 98, 99] 0 3) 1 1) := by
  refine (cstring_correct_iff ?_).mpr trivial
  exact ⟨⟨by decide, by decide, by decide⟩, by decide⟩

/-- `append(new_string("a", 0, 1), new_string("b", 0, 1))` -/
theorem append_overruns :
    Valid (.append (.newString [97] 0 1) (.newString [98] 0 1)) ∧
      ¬ Correct (.append (.newString [97] 0 1) (.newString [98] 0 1)) ∧
      ∃ p, (run (.append (.newString [97] 0 1) (.newString [98] 0 1))).result = .ok (some p) ∧
        p.strlen = 3 ∧ p.value[2]? = some none := by
  refine ⟨⟨⟨by decide, by decide, by decide⟩, by decide, by decide, by decide⟩, ?_, ?_⟩
  · rintro ⟨p, hrun, -⟩
    exact appendFree_of_clean hrun.clean
  · exact ⟨⟨1, 3, [some 97, some 98, none, some 0, none, none, none]⟩, by decide +kernel, rfl, rfl⟩

end Build

end Cstring

end MySrc
