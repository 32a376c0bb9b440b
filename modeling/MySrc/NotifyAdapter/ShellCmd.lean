import MySrc.TemplateHttp.HttpRequestPacket
import MySrc.Lib.Word

/-!
# MySrc.NotifyAdapter.ShellCmd

`pre_process_shell_cmd` of `notify_adapter_v2/src/common/mycommon.cpp`, which is to put a
backslash in front of the parentheses of a command.

The search starts from the front after every insertion and finds the same parenthesis again,
one place further on.  So the loop inserts backslashes until the position does not fit into an
`int` any more: it never comes to an end that has changed the command
(`escapeLoop_ok`), and `preProcessShellCmd_iff` says for which commands the result is right.
-/

namespace MySrc
namespace NotifyAdapter
namespace ShellCmd

open Lib

/-! ## the function -/

/-- `g_str_cmd_filter` -/
def gStrCmdFilter : Str := ascii ['(', ')']

/-- `std::string::npos` -/
def npos : Nat := 2 ^ 64 - 1

/-- `str_cmd.find(filter)` -/
def find (str_cmd : Str) (filter : UInt8) : Nat :=
  if filter ∈ str_cmd then str_cmd.idxOf filter else npos

/-- `str_cmd.insert(pos, "\\")`: a negative position is turned into one behind the string, for
which `std::out_of_range` is thrown. -/
def insert (str_cmd : Str) (pos : Int) : Except Fault Str :=
  if 0 ≤ pos ∧ pos ≤ str_cmd.length then
    .ok (str_cmd.take pos.toNat ++ 92 :: str_cmd.drop pos.toNat)
  else .error .outOfBounds

/-- `while (true)` -/
def escapeLoop (filter : UInt8) : Nat → Str → Except Fault Str
  | 0, _ => .error .diverge
  | fuel + 1, str_cmd => do
      let pos := i32 (find str_cmd filter)
      -- `pos == npos` turns the `int` into a `size_t`
      if pos = -1 then return str_cmd
      let str_cmd ← insert str_cmd pos
      escapeLoop filter fuel str_cmd

/-- `pre_process_shell_cmd`, with turns for each of its loops: what it returns, and `str_cmd`. -/
def preProcessShellCmd (fuel : Nat) (str_cmd : Str) : Except Fault (Int × Str) := do
  let str_cmd ← gStrCmdFilter.foldlM (fun str_cmd filter => escapeLoop filter fuel str_cmd) str_cmd
  return (0, str_cmd)

/-- Each parenthesis with a backslash in front of it. -/
def escaped (str_cmd : Str) : Str :=
  str_cmd.flatMap fun c => if c ∈ gStrCmdFilter then [92, c] else [c]

/-! ## the search -/

section

variable {s t : Str} {filter : UInt8} {fuel p : Nat}

/-- What is inserted in front of the first parenthesis moves it by one place. -/
theorem idxOf_insert (hfilter : filter ≠ 92) (hmem : filter ∈ s) (hp : p ≤ s.idxOf filter) :
    (s.take p ++ 92 :: s.drop p).idxOf filter = s.idxOf filter + 1 := by
  have hfront : filter ∉ s.take p := fun h => by
    have := (List.mem_take_iff_idxOf_lt hmem).mp h
    omega
  have hsplit : s.idxOf filter = (s.drop p).idxOf filter + (s.take p).length := by
    conv_lhs => rw [← List.take_append_drop p s, List.idxOf_append_of_notMem hfront]
    omega
  rw [List.idxOf_append_of_notMem hfront, List.idxOf_cons_ne _ hfilter.symm, hsplit]
  omega

theorem i32_npos : i32 (npos : Int) = -1 := by
  unfold i32
  decide

/-- The number before one that is cut to -1 is cut to -2. -/
theorem i32_of_succ {x : Int} (h : i32 (x + 1) = -1) : i32 x = -2 := by
  have hback : i32 (i32 (x + 1) + -1) = i32 x := by
    rw [i32_i32_add, Int.add_neg_cancel_right]
  rw [← hback, h]
  exact i32_eq_self (by decide)

/-- **The loop changes nothing.**  Where it comes to an end, it has not inserted anything. -/
theorem escapeLoop_ok (hfilter : filter ≠ 92) (h : escapeLoop filter fuel s = .ok t) :
    t = s ∧ i32 (find s filter) = -1 := by
  induction fuel generalizing s with
  | zero => cases h
  | succ fuel ih =>
      rw [escapeLoop] at h
      by_cases hpos : i32 (find s filter) = -1
      · rw [if_pos hpos, pure_eq_ok, Except.ok.injEq] at h
        exact ⟨h.symm, hpos⟩
      · rw [if_neg hpos] at h
        obtain ⟨s', hs', h⟩ := bind_eq_ok.mp h
        rw [insert] at hs'
        split at hs'
        · next hinside =>
          -- the parenthesis is at `pos + 1` now, and the search for it ends the loop
          have hmem : filter ∈ s := by
            by_contra hmem
            rw [find, if_neg hmem] at hpos
            exact hpos i32_npos
          have hfind : find s filter = s.idxOf filter := if_pos hmem
          have hle : (i32 (find s filter)).toNat ≤ s.idxOf filter := by
            have := i32_natCast_le (find s filter)
            omega
          rw [Except.ok.injEq] at hs'
          obtain ⟨-, hend⟩ := ih h
          have hmem' : filter ∈ s' := by
            rw [← List.take_append_drop (i32 (find s filter)).toNat s, List.mem_append] at hmem
            rw [← hs', List.mem_append, List.mem_cons]
            exact hmem.imp_right .inr
          have hfind' : find s' filter = find s filter + 1 := by
            rw [find, if_pos hmem', ← hs', idxOf_insert hfilter hmem hle, hfind]
          rw [hfind', Int.natCast_succ] at hend
          have := i32_of_succ hend
          omega
        · cases hs'

theorem escapeLoop_of_notMem (h : filter ∉ s) : escapeLoop filter (fuel + 1) s = .ok s := by
  rw [escapeLoop, find, if_neg h, if_pos i32_npos]
  rfl

end

/-! ## the command -/

theorem gStrCmdFilter_eq : gStrCmdFilter = [40, 41] := by decide

/-- Only a command without parentheses is as it should be. -/
theorem escaped_eq_self_iff (s : Str) : escaped s = s ↔ 40 ∉ s ∧ 41 ∉ s := by
  induction s with
  | nil => simp [escaped]
  | cons c s ih =>
      have hcons : escaped (c :: s) =
          (if c ∈ gStrCmdFilter then [92, c] else [c]) ++ escaped s := List.flatMap_cons
      rw [hcons]
      by_cases hc : c ∈ gStrCmdFilter
      · have hparen : c = 40 ∨ c = 41 := by simpa [gStrCmdFilter_eq] using hc
        rw [if_pos hc]
        refine iff_of_false ?_ ?_
        · intro h
          have hslash : 92 = c := (List.cons.inj h).1
          rcases hparen with rfl | rfl <;> exact absurd hslash (by decide)
        · rcases hparen with rfl | rfl <;> simp
      · have hparen : c ≠ 40 ∧ c ≠ 41 := by simpa [gStrCmdFilter_eq] using hc
        rw [if_neg hc, List.singleton_append, List.cons.injEq, ih]
        simp [hparen.1.symm, hparen.2.symm]

theorem preProcessShellCmd_eq (fuel : Nat) (s : Str) :
    preProcessShellCmd fuel s =
      escapeLoop 40 fuel s >>= fun s => escapeLoop 41 fuel s >>= fun s => .ok (0, s) := by
  rw [preProcessShellCmd, gStrCmdFilter_eq]
  simp only [List.foldlM_cons, List.foldlM_nil, bind_assoc, pure_bind]
  rfl

/-- When the function comes to an end, the command is what it was. -/
theorem eq_of_preProcessShellCmd {fuel : Nat} {s : Str} {r : Int × Str}
    (h : preProcessShellCmd fuel s = .ok r) : r.2 = s := by
  rw [preProcessShellCmd_eq] at h
  obtain ⟨t, hleft, hrest⟩ := bind_eq_ok.mp h
  obtain ⟨u, hright, hend⟩ := bind_eq_ok.mp hrest
  have ht : t = s := (escapeLoop_ok (by decide) hleft).1
  have hu : u = t := (escapeLoop_ok (by decide) hright).1
  rw [← Except.ok.inj hend, hu, ht]

/-- **Shell commands.**  The function comes to an end with a backslash in front of each
parenthesis and nothing else changed just when there are no parentheses. -/
theorem preProcessShellCmd_iff (s : Str) :
    (∃ fuel r, preProcessShellCmd fuel s = .ok (r, escaped s)) ↔ 40 ∉ s ∧ 41 ∉ s := by
  constructor
  · rintro ⟨fuel, r, h⟩
    exact (escaped_eq_self_iff s).mp (eq_of_preProcessShellCmd h)
  · intro h
    refine ⟨1, 0, ?_⟩
    rw [(escaped_eq_self_iff s).mpr h, preProcessShellCmd_eq, escapeLoop_of_notMem h.1, ok_bind,
      escapeLoop_of_notMem h.2, ok_bind]

/-- A single parenthesis is enough. -/
theorem preProcessShellCmd_paren :
    ¬ ∃ fuel r, preProcessShellCmd fuel (ascii ['(']) = .ok (r, escaped (ascii ['('])) := by
  rintro ⟨fuel, r, h⟩
  have heq : escaped (ascii ['(']) = ascii ['('] := eq_of_preProcessShellCmd h
  exact absurd heq (by decide)

end ShellCmd
end NotifyAdapter
end MySrc
