import Mathlib.Data.List.Basic

/-!
# MySrc.Lib.Replica

A store with a replica that lags behind it.

Every operation is carried out on the primary first, and on the replica later.
The backlog holds the operations the replica has yet to see, in the order in
which the primary has seen them; the replica may take them in another order.
`InSync` says that the backlog makes the replica equal to the primary.  An
operation that the replica takes early keeps that as long as it commutes with
all those it overtakes.
-/

namespace Lib

section

variable {σ ω : Type} (act : ω → σ → σ)

/-- Carry out a list of operations, the first one first. -/
def applyAll (ops : List ω) (s : σ) : σ := ops.foldl (fun s op => act op s) s

@[simp] theorem applyAll_nil (s : σ) : applyAll act [] s = s := rfl

@[simp] theorem applyAll_cons (op : ω) (ops : List ω) (s : σ) :
    applyAll act (op :: ops) s = applyAll act ops (act op s) := rfl

theorem applyAll_append (ops ops' : List ω) (s : σ) :
    applyAll act (ops ++ ops') s = applyAll act ops' (applyAll act ops s) :=
  List.foldl_append

/-- Two operations commute. -/
def Commutes (op op' : ω) : Prop := ∀ s, act op (act op' s) = act op' (act op s)

variable {act}

/-- An operation moves in front of those it commutes with. -/
theorem applyAll_comm {op : ω} {ops : List ω} (h : ∀ op' ∈ ops, Commutes act op op') (s : σ) :
    applyAll act ops (act op s) = act op (applyAll act ops s) := by
  induction ops generalizing s with
  | nil => rfl
  | cons op' ops ih =>
      rw [applyAll_cons, applyAll_cons, ← h op' List.mem_cons_self s]
      exact ih (fun o ho => h o (List.mem_cons_of_mem op' ho)) (act op' s)

/-- An operation may be taken out of its turn when it commutes with those before it. -/
theorem applyAll_eraseIdx {ops : List ω} {i : Nat} {op : ω} (hop : ops[i]? = some op)
    (h : ∀ op' ∈ ops.take i, Commutes act op op') (s : σ) :
    applyAll act (ops.eraseIdx i) (act op s) = applyAll act ops s := by
  obtain ⟨hi, rfl⟩ := List.getElem?_eq_some_iff.mp hop
  have hsplit : ops = ops.take i ++ ops[i] :: ops.drop (i + 1) := by
    rw [← List.drop_eq_getElem_cons hi, List.take_append_drop]
  rw [List.eraseIdx_eq_take_drop_succ, applyAll_append, applyAll_comm h]
  conv_rhs => rw [hsplit, applyAll_append, applyAll_cons]

variable (act)

/-- The backlog makes the replica equal to the primary. -/
def InSync (primary replica : σ) (backlog : List ω) : Prop :=
  applyAll act backlog replica = primary

variable {act} {primary replica : σ} {backlog : List ω}

/-- The primary carries out an operation. -/
theorem InSync.commit (h : InSync act primary replica backlog) (op : ω) :
    InSync act (act op primary) replica (backlog ++ [op]) := by
  rw [InSync, applyAll_append, h]
  rfl

/-- The replica takes an operation that commutes with those it overtakes. -/
theorem InSync.catchUp (h : InSync act primary replica backlog) {i : Nat} {op : ω}
    (hop : backlog[i]? = some op) (hcomm : ∀ op' ∈ backlog.take i, Commutes act op op') :
    InSync act primary (act op replica) (backlog.eraseIdx i) :=
  (applyAll_eraseIdx hop hcomm replica).trans h

/-- A replica without a backlog is equal to the primary. -/
theorem InSync.eq_of_nil (h : InSync act primary replica []) : replica = primary := h

end

end Lib
