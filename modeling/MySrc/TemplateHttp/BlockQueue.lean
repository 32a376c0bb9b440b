import MySrc.Lib.Run
import Mathlib.Data.Finset.Basic

/-!
# MySrc.TemplateHttp.BlockQueue

`template_http/src/struct/block_queue.h`: a list with a condition variable.
`add_queue` appends under `m_list_mutex` and signals after it has released the
mutex; `dequeue_expand` looks into the list first (`dequeue_nodelay`) and waits
for the condition only when it was empty.

The steps of any number of producers and one consumer interleave.  What happens
under `m_list_mutex` is one step.  The wait is under another mutex, which no
producer takes, so a signal can fall between the look into the list and the
wait, where it wakes nobody: `blockQueue_wakeups` says that this is the only
way in which the consumer sleeps over an element.
-/

namespace MySrc
namespace BlockQueue

open Lib

/-! ## the queue and its threads -/

/-- Where the consumer is in `dequeue_expand`. -/
inductive Consumer
  | idle
  /-- `dequeue_nodelay` has found the list empty -/
  | tested
  /-- blocked in `pthread_cond_timedwait` -/
  | waiting
  /-- the wait has ended, and `dequeue` will look into the list again -/
  | woken
  deriving DecidableEq

structure Queue (α : Type) where
  m_list : List α
  m_size : Int
  /-- the producers that have appended an element and not yet signalled -/
  signalling : Finset Nat
  consumer : Consumer

def init (α : Type) : Queue α := ⟨[], 0, ∅, .idle⟩

/-- Why `pthread_cond_timedwait` returns when nobody has signalled. -/
inductive Wakeup
  | spurious
  | timeout
  | error
  deriving DecidableEq

inductive Act (α : Type)
  /-- `add_queue` appends -/
  | push (producer : Nat) (data : α)
  /-- `add_queue` signals -/
  | signal (producer : Nat)
  /-- `dequeue_expand` is called and looks into the list -/
  | test
  /-- `dequeue` begins to wait -/
  | wait
  /-- the wait ends without a signal -/
  | wake (wakeup : Wakeup)
  /-- `dequeue` looks into the list -/
  | take

/-- The common part of `dequeue_nodelay` and `dequeue`, under `m_list_mutex`: the element,
and 1 when there is one. -/
def popFront {α : Type} (q : Queue α) : Queue α × Int × Option α :=
  match q.m_list with
  | [] => (q, 0, none)
  | data :: m_list => ({ q with m_list, m_size := q.m_size - 1 }, 1, some data)

/-- One step, with what `dequeue_expand` returns when it returns. -/
def step {α : Type} (q : Queue α) : Act α → Except Fault (Queue α × Option (Int × Option α))
  | .push producer data =>
      .ok ({ q with
        m_list := q.m_list ++ [data]
        m_size := q.m_size + 1
        signalling := insert producer q.signalling }, none)
  | .signal producer =>
      .ok ({ q with
        signalling := q.signalling.erase producer
        consumer := if q.consumer = .waiting then .woken else q.consumer }, none)
  | .test =>
      let (q, result, data) := popFront q
      if result = 0 then .ok ({ q with consumer := .tested }, none)
      else .ok (q, some (result, data))
  | .wait => .ok ({ q with consumer := .waiting }, none)
  | .wake .error => .ok ({ q with consumer := .idle }, some (-1, none))
  | .wake _ => .ok ({ q with consumer := .woken }, none)
  | .take =>
      let (q, result) := popFront q
      .ok ({ q with consumer := .idle }, some result)

/-- Each thread does its steps in their order. -/
def Enabled {α : Type} (q : Queue α) : Act α → Prop
  | .push producer _ => producer ∉ q.signalling
  | .signal producer => producer ∈ q.signalling
  | .test => q.consumer = .idle
  | .wait => q.consumer = .tested
  | .wake _ => q.consumer = .waiting
  | .take => q.consumer = .woken

instance {α : Type} (q : Queue α) (act : Act α) : Decidable (Enabled q act) :=
  match act with
  | .push producer _ => inferInstanceAs (Decidable (producer ∉ q.signalling))
  | .signal producer => inferInstanceAs (Decidable (producer ∈ q.signalling))
  | .test => inferInstanceAs (Decidable (q.consumer = .idle))
  | .wait => inferInstanceAs (Decidable (q.consumer = .tested))
  | .wake _ => inferInstanceAs (Decidable (q.consumer = .waiting))
  | .take => inferInstanceAs (Decidable (q.consumer = .woken))

/-! ## wake-ups -/

section

variable {α : Type} {q q' : Queue α}

/-- The consumer sleeps, there is an element, and no producer has still to signal. -/
def Overslept (q : Queue α) : Prop :=
  q.consumer = .waiting ∧ q.m_list ≠ [] ∧ q.signalling = ∅

/-- The last signal that is still to come falls between the look into the list, which has
been filled since, and the wait. -/
def signalLost (q : Queue α) : Act α → Bool
  | .signal producer =>
      q.consumer = .tested && !q.m_list.isEmpty && q.signalling.erase producer = ∅
  | _ => false

/-- While the consumer has not looked into the list since it was empty, an element has a
signal to come. -/
def Covered (q : Queue α) : Prop :=
  q.consumer = .tested ∨ q.consumer = .waiting → q.m_list = [] ∨ q.signalling ≠ ∅

/-- **Step**: an element keeps a signal to come, unless that signal is lost. -/
theorem Covered.step (h : Covered q) {act : Act α} {out : Option (Int × Option α)}
    (henabled : Enabled q act) (hlost : signalLost q act = false)
    (hs : step q act = .ok (q', out)) : Covered q' := by
  cases act with
  | push producer data =>
      cases hs
      exact fun _ => .inr (Finset.insert_ne_empty _ _)
  | signal producer =>
      cases hs
      intro hconsumer
      by_cases hwaiting : q.consumer = .waiting
      · simp [hwaiting] at hconsumer
      · simp only [if_neg hwaiting] at hconsumer
        have htested : q.consumer = .tested := hconsumer.resolve_right hwaiting
        simp only [signalLost, htested, decide_true, Bool.true_and, Bool.and_eq_false_iff,
          Bool.not_eq_false', List.isEmpty_iff, decide_eq_false_iff_not] at hlost
        exact hlost
  | test =>
      cases hlist : q.m_list with
      | nil =>
          simp only [BlockQueue.step, popFront, hlist, if_true] at hs
          cases hs
          exact fun _ => .inl rfl
      | cons data rest =>
          simp only [BlockQueue.step, popFront, hlist] at hs
          cases hs
          intro hconsumer
          have hidle : q.consumer = .idle := henabled
          simp [hidle] at hconsumer
  | wait =>
      cases hs
      exact fun _ => h (.inl henabled)
  | wake wakeup =>
      cases wakeup
      all_goals
        cases hs
        intro hconsumer
        simp at hconsumer
  | take =>
      cases hs
      intro hconsumer
      simp at hconsumer

/-- **Wake-ups**: in every interleaving in which no last signal is lost the consumer never
sleeps over an element with no signal to come; and after a signal that is lost so, the
next step of the consumer is to sleep over an element. -/
theorem blockQueue_wakeups (α : Type) :
    (∀ t q, Run (step (α := α)) (fun q act => Enabled q act ∧ signalLost q act = false)
      (init α) t q → ¬ Overslept q) ∧
    ∀ t q act, Run (step (α := α)) Enabled (init α) t q → Enabled q act →
      signalLost q act = true → ∃ q', Run step Enabled q [(act, none), (.wait, none)] q' ∧
        Overslept q' := by
  refine ⟨fun t q h => ?_, fun t q act _ henabled hlost => ?_⟩
  · have hcovered : Covered q := by
      refine h.invariant (I := fun _ q => Covered q) ?_ ?_
      · intro hconsumer
        simp [init] at hconsumer
      · intro t q act q' out hI hok hs
        exact hI.step hok.1 hok.2 hs
    rintro ⟨hwaiting, hne, hnone⟩
    exact (hcovered (.inr hwaiting)).elim hne (absurd hnone)
  · cases act with
    | signal producer =>
        simp only [signalLost, Bool.and_eq_true, decide_eq_true_eq, Bool.not_eq_true',
          List.isEmpty_eq_false_iff] at hlost
        obtain ⟨⟨htested, hne⟩, hnone⟩ := hlost
        have hsignal : step q (.signal producer) =
            .ok ({ q with signalling := ∅, consumer := .tested }, none) := by
          simp [step, htested, hnone]
        exact ⟨_, (Run.nil.snoc henabled hsignal).snoc rfl rfl, rfl, hne, rfl⟩
    | _ => cases hlost

end

/-- Two puts around a wait, the first of which is announced during the wait. -/
theorem blockQueue_wakeups_two :
    ∃ t q, Run (step (α := Nat)) (fun q act => Enabled q act ∧ signalLost q act = false)
        (init Nat) t q ∧
      t.map (·.2) = [none, none, none, none, some (1, some 70), none] ∧ q.m_list = [80] ∧
      ¬ Overslept q := by
  have hreplay : (replay (step (α := Nat)) (fun q act => Enabled q act ∧ signalLost q act = false)
      (init Nat) [.test, .wait, .push 0 70, .signal 0, .take, .push 1 80]).map
        (fun r => (r.1.map (·.2), r.2.m_list)) =
      some ([none, none, none, none, some (1, some 70), none], [80]) := by
    decide +kernel
  obtain ⟨⟨t, q⟩, hs, hlog⟩ := Option.map_eq_some_iff.mp hreplay
  obtain ⟨hout, hlist⟩ := Prod.mk.inj hlog
  have hrun := Run.nil.replay hs
  exact ⟨t, q, hrun, hout, hlist, (blockQueue_wakeups Nat).1 t q hrun⟩

/-- The consumer finds the list empty, a producer appends and signals, and only then the
consumer goes to sleep. -/
theorem sleeps_over_element :
    ∃ t q, Run (step (α := Nat)) Enabled (init Nat) t q ∧ Overslept q := by
  have hreplay : (replay (step (α := Nat)) Enabled (init Nat)
      [.test, .push 0 70, .signal 0, .wait]).map
        (fun r => (r.2.consumer, r.2.m_list, r.2.signalling)) =
      some (.waiting, [70], ∅) := by
    decide +kernel
  obtain ⟨⟨t, q⟩, hs, hlog⟩ := Option.map_eq_some_iff.mp hreplay
  simp only [Prod.mk.injEq] at hlog
  refine ⟨t, q, Run.nil.replay hs, hlog.1, ?_, hlog.2.2⟩
  rw [hlog.2.1]
  exact List.cons_ne_nil _ _

end BlockQueue
end MySrc
