import MySrc.Lib.Ring
import MySrc.Lib.Word

/-!
# MySrc.TemplateHttp.Clock

`Clock` of `template_http/src/common/Clock.{h,cpp}`: timers in the slots of a clock face.
The timers of a slot form a ring that `m_slot_timer_head` points into; a tick looks
through the ring of the current slot and commits the callbacks whose rotation it is.

`addTimer` gets the address that `malloc` returns.  `long` arithmetic that overflows is a
fault, and so is a division by zero; a `long` is cut down to an `int` modulo `2 ^ 32`.

`delete_timer` never looks at `m_slot_timer_head`.  `rings_sound` says that this and a
slot index outside the array are all that can harm the rings.
-/

namespace MySrc

open Lib
open Function (update)

/-! ## the clock -/

/-- The fields of `struct timer` but its links. -/
structure TimerData where
  valid_rotation_num : Int
  slot_num : Int
  data : Nat
  callback_func : Nat
  deriving Repr, DecidableEq

abbrev Timers := Heap (RingNode TimerData)

/-- `SLOT_NUMS` -/
def slotNums : Nat := 60

/-- `Clock`, with the timers that are allocated. -/
structure Clock where
  m_slot_sec : Int
  m_circle_num : Int
  m_slot_num : Int
  m_slot_timer_head : Nat → Ptr
  m_current_rotation_num : Int
  m_current_slot_num : Int
  timers : Timers

namespace Clock

/-- `Clock::Clock` -/
def init (sec circle_num_secs slot_num_secs : Int) : Clock where
  m_slot_sec := sec
  m_circle_num := circle_num_secs
  m_slot_num := slot_num_secs
  m_slot_timer_head := fun _ => none
  m_current_rotation_num := 0
  m_current_slot_num := 0
  timers := ∅

/-- `m_slot_timer_head[index]` -/
def headAt (c : Clock) (index : Int) : Except Fault Ptr :=
  if 0 ≤ index ∧ index < slotNums then .ok (c.m_slot_timer_head index.toNat)
  else .error .outOfBounds

/-! ## long arithmetic -/

/-- The value of a `long` expression. -/
def long (x : Int) : Except Fault Int :=
  if -(2 ^ 63) ≤ x ∧ x < 2 ^ 63 then .ok x else .error .overflow

/-- `a / b` -/
def longDiv (a b : Int) : Except Fault Int :=
  if b = 0 then .error .overflow else long (a.tdiv b)

/-- `a % b` -/
def longMod (a b : Int) : Except Fault Int := do
  let _ ← longDiv a b
  return a.tmod b

/-! ## timers -/

/-- The rotation and the slot that `add_timer` computes. -/
def timerSlot (m_slot_sec hours mins secs : Int) : Except Fault (Int × Int) := do
  let total_secs_4hours ← long (hours * 3600)
  let total_secs_4mins ← long (mins * 60)
  let tatal_secs_4secs ← long (secs + total_secs_4hours)
  let tatal_secs_4secs ← long (tatal_secs_4secs + total_secs_4mins)
  let secs_per_slot := m_slot_sec
  let secs_per_circle ← long (m_slot_sec * slotNums)
  let valid_rotation_num ← longDiv tatal_secs_4secs secs_per_circle
  let remind ← longMod tatal_secs_4secs secs_per_circle
  let remind := i32 remind
  let slotnb ← longDiv remind secs_per_slot
  let slotnb := i32 slotnb
  let remind ← longMod remind secs_per_slot
  let remind := i32 remind
  if remind ≥ secs_per_slot.tdiv 2 then return (i32 valid_rotation_num, slotnb)
  return (i32 valid_rotation_num, slotnb - 1)

/-- `Clock::add_timer`; `newtimer` is what `malloc` returns. -/
def addTimer (c : Clock) (newtimer : Nat) (hours mins secs : Int) (my_callback data : Nat) :
    Except Fault Clock := do
  let (valid_rotation_num, slot_num) ← timerSlot c.m_slot_sec hours mins secs
  let timers := c.timers.insert newtimer
    ⟨none, none, ⟨valid_rotation_num, slot_num, data, my_callback⟩⟩
  let index := slot_num
  match ← headAt c index with
  | none =>
      let timers ← setNext timers (some newtimer) (some newtimer)
      let timers ← setPrev timers (some newtimer) (some newtimer)
      return { c with
        timers, m_slot_timer_head := update c.m_slot_timer_head index.toNat (some newtimer) }
  | some head =>
      let h ← load timers (some head)
      let timers ← setPrev timers h.next (some newtimer)
      let h ← load timers (some head)
      let timers ← setNext timers (some newtimer) h.next
      let timers ← setPrev timers (some newtimer) (some head)
      let timers ← setNext timers (some head) (some newtimer)
      return { c with timers }

/-- `Clock::delete_timer` -/
def deleteTimer (c : Clock) (timer : Ptr) : Except Fault Clock := do
  let t ← load c.timers timer
  let t_next := t.next
  if t_next ≠ timer then
    let t_prev := t.prev
    let timers ← setNext c.timers t_prev t_next
    let timers ← setPrev timers t_next t_prev
    let timers ← free timers timer
    return { c with timers }
  let timers ← free c.timers timer
  return { c with timers }

/-! ## ticks -/

/-- What `commit_task` gets: the callback of a timer and its argument. -/
structure Commit where
  timer : Ptr
  callback_func : Nat
  data : Nat
  deriving Repr, DecidableEq

/-- What a tick commits for a timer. -/
def commitOf (rotation slot : Int) (etimer : Ptr) (t : TimerData) : List Commit :=
  if t.valid_rotation_num = rotation ∧ t.slot_num = slot then
    [⟨etimer, t.callback_func, t.data⟩]
  else []

/-- The loop of `start_tick` over the ring of a slot.  It changes no link, so it never
ends once it has taken more steps than there are timers. -/
def tickLoop (timers : Timers) (rotation slot : Int) (htimer : Ptr) :
    Nat → Ptr → Except Fault (List Commit)
  | 0, _ => .error .diverge
  | fuel + 1, etimer => do
      let t ← load timers etimer
      if t.next ≠ none ∧ t.next ≠ htimer then
        let rest ← tickLoop timers rotation slot htimer fuel t.next
        return commitOf rotation slot etimer t.data ++ rest
      return commitOf rotation slot etimer t.data

/-- What `start_tick` commits when its `select` times out. -/
def commitTimers (c : Clock) : Except Fault (List Commit) := do
  match ← headAt c c.m_current_slot_num with
  | none => return []
  | some head =>
      tickLoop c.timers c.m_current_rotation_num c.m_current_slot_num (some head)
        (c.timers.keys.length + 1) (some head)

/-- The next rotation and slot. -/
def nextCounters (c : Clock) : Except Fault (Int × Int) :=
  if slotNums - 1 ≤ c.m_current_slot_num then
    if c.m_current_rotation_num + 1 < 2 ^ 31 then .ok (c.m_current_rotation_num + 1, 0)
    else .error .overflow
  else .ok (c.m_current_rotation_num, c.m_current_slot_num + 1)

/-- How the counters of `start_tick` go on: at the end of its period the clock begins
again. -/
def advance (c : Clock) : Except Fault Clock := do
  let (rotation, slot) ← nextCounters c
  if rotation = c.m_circle_num ∧ slot = c.m_slot_num then
    return { c with m_current_rotation_num := 0, m_current_slot_num := 0 }
  return { c with m_current_rotation_num := rotation, m_current_slot_num := slot }

/-- One turn of `start_tick`. -/
def tick (c : Clock) : Except Fault (Clock × List Commit) := do
  let commits ← commitTimers c
  let c ← advance c
  return (c, commits)

/-- The inner loop of `clear_all_timer`, which frees the timers behind the head. -/
def clearLoop (htimer : Ptr) : Nat → Timers → Ptr → Except Fault Timers
  | 0, _, _ => .error .diverge
  | fuel + 1, timers, t_next => do
      if t_next ≠ none ∧ t_next ≠ htimer then
        let tmp ← load timers t_next
        let timers ← free timers t_next
        clearLoop htimer fuel timers tmp.next
      else return timers

/-- The body of the loop of `clear_all_timer`. -/
def clearSlot (c : Clock) (i : Nat) : Except Fault Clock :=
  match c.m_slot_timer_head i with
  | none => .ok c
  | some head => do
      let h ← load c.timers (some head)
      let timers ← clearLoop (some head) (c.timers.keys.length + 1) c.timers h.next
      let timers ← free timers (some head)
      return { c with timers, m_slot_timer_head := update c.m_slot_timer_head i none }

/-- `Clock::clear_all_timer` -/
def clearAllTimer (c : Clock) : Except Fault Clock := (List.range slotNums).foldlM clearSlot c

/-! ## rings -/

/-- The slot of a timer that is allocated. -/
def slotOf (c : Clock) (a : Nat) : Option Int := (dataOf c.timers a).map (·.slot_num)

/-- The timers `xs` form the ring of a slot, with the first one at its head. -/
def SlotRing (c : Clock) (i : Nat) : List Nat → Prop
  | [] => c.m_slot_timer_head i = none
  | d :: xs => c.m_slot_timer_head i = some d ∧ Ring c.timers d xs

/-- The ring of a slot goes through exactly the timers of the slot. -/
def SlotSound (c : Clock) (i : Nat) : Prop :=
  ∃ xs, SlotRing c i xs ∧ ∀ a, a ∈ xs ↔ slotOf c a = some (i : Int)

/-- Every slot is sound, and every timer is in a slot. -/
structure RingsSound (c : Clock) : Prop where
  ring : ∀ i < slotNums, SlotSound c i
  live : ∀ a ∈ c.timers, ∃ i < slotNums, slotOf c a = some (i : Int)

section

variable {c c' : Clock} {i : Nat} {xs : List Nat}

theorem mem_of_slotOf {a : Nat} {slot : Int} (h : slotOf c a = some slot) : a ∈ c.timers := by
  obtain ⟨t, ht, -⟩ := Option.map_eq_some_iff.mp h
  obtain ⟨n, hn, -⟩ := Option.map_eq_some_iff.mp ht
  exact mem_of_lookup hn

/-- A ring whose timers and head are left alone. -/
theorem SlotRing.frame (h : SlotRing c i xs)
    (hhead : c'.m_slot_timer_head i = c.m_slot_timer_head i)
    (hmem : ∀ a ∈ xs, a ∈ c'.timers)
    (hnext : ∀ a ∈ xs, nextOf c'.timers a = nextOf c.timers a)
    (hprev : ∀ a ∈ xs, prevOf c'.timers a = prevOf c.timers a) : SlotRing c' i xs := by
  cases xs with
  | nil => exact hhead.trans h
  | cons d xs => exact ⟨hhead.trans h.1, h.2.frame hmem hnext hprev⟩

/-- A slot whose timers and head are left alone. -/
theorem SlotSound.frame (h : SlotSound c i)
    (hhead : c'.m_slot_timer_head i = c.m_slot_timer_head i)
    (hslot : ∀ a, slotOf c' a = some (i : Int) ↔ slotOf c a = some (i : Int))
    (hnext : ∀ a, slotOf c a = some (i : Int) → nextOf c'.timers a = nextOf c.timers a)
    (hprev : ∀ a, slotOf c a = some (i : Int) → prevOf c'.timers a = prevOf c.timers a) :
    SlotSound c' i := by
  obtain ⟨xs, hring, hxs⟩ := h
  refine ⟨xs, hring.frame hhead ?_ ?_ ?_, fun a => (hxs a).trans (hslot a).symm⟩
  · exact fun a ha => mem_of_slotOf ((hslot a).mpr ((hxs a).mp ha))
  · exact fun a ha => hnext a ((hxs a).mp ha)
  · exact fun a ha => hprev a ((hxs a).mp ha)

/-- A new clock has no timers, and its rings are sound. -/
theorem rings_init (sec circle_num_secs slot_num_secs : Int) :
    RingsSound (init sec circle_num_secs slot_num_secs) where
  ring := by
    intro i _
    refine ⟨[], rfl, fun a => iff_of_false List.not_mem_nil ?_⟩
    simp [slotOf, dataOf, init]
  live := fun a ha => absurd ha (AList.notMem_empty a)

end

/-! ## add_timer -/

section

variable {c c' : Clock} {newtimer : Nat} {hours mins secs rotation : Int} {i : Nat}

theorem mem_iff_dataOf {timers : Timers} {a : Nat} :
    a ∈ timers ↔ ∃ t, dataOf timers a = some t := by
  rw [← AList.lookup_isSome, ← Option.isSome_iff_exists, dataOf, Option.isSome_map]

theorem slotOf_of_notMem {a : Nat} (h : a ∉ c.timers) : slotOf c a = none := by
  rw [Option.eq_none_iff_forall_ne_some]
  exact fun slot hslot => h (mem_of_slotOf hslot)

/-- A timer that is there has a slot. -/
theorem mem_iff_slotOf {a : Nat} : a ∈ c.timers ↔ ∃ slot, slotOf c a = some slot := by
  rw [mem_iff_dataOf, ← Option.isSome_iff_exists, ← Option.isSome_iff_exists, slotOf,
    Option.isSome_map]

/-- A change to one slot, by a timer that comes or goes there, leaves everything sound when
the links of the other slots are left alone. -/
theorem RingsSound.change (hc : RingsSound c) (hi : i < slotNums) (timer : Nat)
    (hbefore : ∀ slot ∈ slotOf c timer, slot = i) (hafter : ∀ slot ∈ slotOf c' timer, slot = i)
    (hslots : ∀ a ≠ timer, slotOf c' a = slotOf c a)
    (hhead : ∀ j ≠ i, c'.m_slot_timer_head j = c.m_slot_timer_head j) (hsound : SlotSound c' i)
    (hnext : ∀ a ∈ c.timers, slotOf c a ≠ some (i : Int) → nextOf c'.timers a = nextOf c.timers a)
    (hprev : ∀ a ∈ c.timers, slotOf c a ≠ some (i : Int) → prevOf c'.timers a = prevOf c.timers a) :
    RingsSound c' := by
  refine ⟨fun j hj => ?_, fun a ha => ?_⟩
  · by_cases hji : j = i
    · subst hji
      exact hsound
    · have hne : (j : Int) ≠ i := by omega
      have hother : ∀ a, slotOf c a = some (j : Int) → slotOf c a ≠ some (i : Int) := by
        intro a ha
        rw [ha]
        simpa using hne
      refine (hc.ring j hj).frame (hhead j hji) (fun a => ?_) ?_ ?_
      · by_cases ha : a = timer
        · subst ha
          exact iff_of_false (fun h => hne (hafter j h)) fun h => hne (hbefore j h)
        · rw [hslots a ha]
      · exact fun a ha => hnext a (mem_of_slotOf ha) (hother a ha)
      · exact fun a ha => hprev a (mem_of_slotOf ha) (hother a ha)
  · obtain ⟨slot, hslot⟩ := mem_iff_slotOf.mp ha
    by_cases htimer : a = timer
    · subst htimer
      exact ⟨i, hi, by rw [hslot, hafter slot hslot]⟩
    · rw [hslots a htimer] at hslot ⊢
      exact hc.live a (mem_of_slotOf hslot)

/-- The head of a slot in the array. -/
theorem headAt_eq (c : Clock) (hi : i < slotNums) :
    headAt c (i : Int) = .ok (c.m_slot_timer_head i) := by
  rw [headAt, if_pos ⟨by omega, by omega⟩, Int.toNat_natCast]

/-- A relinked heap with one new timer in it. -/
theorem dataOf_relinked {timers mem : Timers} {n : RingNode TimerData} {nx pv : Nat → Ptr}
    (hrel : Relinked (timers.insert newtimer n) mem nx pv) :
    dataOf mem = update (dataOf timers) newtimer (some n.data) := by
  rw [hrel.data, dataOf_insert]

/-- A new timer in the ring of its slot. -/
theorem RingsSound.add (hc : RingsSound c) (hnew : newtimer ∉ c.timers) (hi : i < slotNums)
    {t : TimerData} (hslot : t.slot_num = i)
    (hdata : dataOf c'.timers = update (dataOf c.timers) newtimer (some t))
    (hhead : ∀ j ≠ i, c'.m_slot_timer_head j = c.m_slot_timer_head j) {xs : List Nat}
    (hring : SlotRing c' i xs) (hxs : ∀ a, a ∈ xs ↔ a = newtimer ∨ slotOf c a = some (i : Int))
    (hnext : ∀ a ∈ c.timers, slotOf c a ≠ some (i : Int) → nextOf c'.timers a = nextOf c.timers a)
    (hprev : ∀ a ∈ c.timers, slotOf c a ≠ some (i : Int) → prevOf c'.timers a = prevOf c.timers a) :
    RingsSound c' := by
  have hself : slotOf c' newtimer = some (i : Int) := by
    rw [slotOf, hdata, Function.update_self, Option.map_some, hslot]
  have hslots : ∀ a ≠ newtimer, slotOf c' a = slotOf c a := by
    intro a ha
    rw [slotOf, hdata, Function.update_of_ne ha, slotOf]
  refine hc.change hi newtimer ?_ ?_ hslots hhead ⟨xs, hring, fun a => ?_⟩ hnext hprev
  · simp [slotOf_of_notMem hnew]
  · simp [hself]
  · rw [hxs]
    by_cases ha : a = newtimer
    · simp [ha, hself]
    · simp [ha, hslots]

/-- `c'` is `c` with one timer more. -/
structure Added (c c' : Clock) (newtimer : Nat) (t : TimerData) : Prop where
  sound : RingsSound c'
  data : dataOf c'.timers = update (dataOf c.timers) newtimer (some t)
  same : c' = { c with timers := c'.timers, m_slot_timer_head := c'.m_slot_timer_head }

/-- The first timer of a slot is a ring of its own. -/
theorem addTimer_first (hc : RingsSound c) (hnew : newtimer ∉ c.timers) (hi : i < slotNums)
    (hslot : timerSlot c.m_slot_sec hours mins secs = .ok (rotation, (i : Int)))
    (hhead : c.m_slot_timer_head i = none) (hempty : ∀ a, slotOf c a ≠ some (i : Int))
    (my_callback data : Nat) :
    ∃ c', addTimer c newtimer hours mins secs my_callback data = .ok c' ∧
      Added c c' newtimer ⟨rotation, i, data, my_callback⟩ := by
  let n : RingNode TimerData := ⟨none, none, ⟨rotation, i, data, my_callback⟩⟩
  have hmem : newtimer ∈ c.timers.insert newtimer n := (AList.mem_insert c.timers).mpr (.inl rfl)
  have hold : ∀ a ∈ c.timers, a ≠ newtimer := fun a ha e => hnew (e ▸ ha)
  obtain ⟨mem₁, h₁, r₁⟩ := (Relinked.refl _).setNext hmem (some newtimer)
  obtain ⟨mem₂, h₂, r₂⟩ := r₁.setPrev hmem (some newtimer)
  let heads := update c.m_slot_timer_head i (some newtimer)
  let c' : Clock := { c with timers := mem₂, m_slot_timer_head := heads }
  have hdata := dataOf_relinked r₂
  refine ⟨c', ?_, ?_, hdata, rfl⟩
  · simp only [addTimer, hslot, ok_bind, headAt_eq c hi, hhead]
    rw [h₁, ok_bind, h₂, ok_bind, Int.toNat_natCast]
    rfl
  · have hring : SlotRing c' i [newtimer] := by
      refine ⟨Function.update_self _ _ _, List.nodup_singleton _, ?_, ?_⟩
      · exact fun a ha => (r₂.mem a).mpr (List.mem_singleton.mp ha ▸ hmem)
      · rw [r₂.next, r₂.prev]
        exact ⟨Function.update_self _ _ _, Function.update_self _ _ _⟩
    refine hc.add hnew hi rfl hdata (fun j hj => Function.update_of_ne hj _ _) hring ?_ ?_ ?_
    · intro a
      rw [List.mem_singleton]
      exact ⟨.inl, fun h => h.resolve_right (hempty a)⟩
    · intro a ha _
      change nextOf mem₂ a = nextOf c.timers a
      simp only [r₂.next, nextOf_insert, Function.update_of_ne (hold a ha)]
    · intro a ha _
      change prevOf mem₂ a = prevOf c.timers a
      simp only [r₂.prev, prevOf_insert, Function.update_of_ne (hold a ha)]

/-- Another timer is linked in behind the head. -/
theorem addTimer_behind (hc : RingsSound c) (hnew : newtimer ∉ c.timers) (hi : i < slotNums)
    (hslot : timerSlot c.m_slot_sec hours mins secs = .ok (rotation, (i : Int)))
    {d : Nat} {ds : List Nat} (hhead : c.m_slot_timer_head i = some d) (hr : Ring c.timers d ds)
    (hds : ∀ a, a ∈ d :: ds ↔ slotOf c a = some (i : Int)) (my_callback data : Nat) :
    ∃ c', addTimer c newtimer hours mins secs my_callback data = .ok c' ∧
      Added c c' newtimer ⟨rotation, i, data, my_callback⟩ := by
  let n : RingNode TimerData := ⟨none, none, ⟨rotation, i, data, my_callback⟩⟩
  have hmem : newtimer ∈ c.timers.insert newtimer n := (AList.mem_insert c.timers).mpr (.inl rfl)
  have hold : ∀ a ∈ c.timers, a ≠ newtimer := fun a ha e => hnew (e ▸ ha)
  have hr₀ : Ring (c.timers.insert newtimer n) d ds := hr.alloc hnew n
  have hnot : newtimer ∉ d :: ds := fun hmem => hnew (hr.mem _ hmem)
  have hdmem := hr₀.mem d List.mem_cons_self
  obtain ⟨h₀, hl₀, hnext₀, -⟩ := (Relinked.refl _).load hdmem
  rw [hr₀.next_sentinel] at hnext₀
  obtain ⟨mem₁, h₁, r₁⟩ := (Relinked.refl _).setPrev hr₀.headD_mem (some newtimer)
  obtain ⟨h₁', hl₁, hnext₁, -⟩ := r₁.load hdmem
  rw [hr₀.next_sentinel] at hnext₁
  obtain ⟨mem₂, h₂, r₂⟩ := r₁.setNext hmem (some (ds.headD d))
  obtain ⟨mem₃, h₃, r₃⟩ := r₂.setPrev hmem (some d)
  obtain ⟨mem₄, h₄, r₄⟩ := r₃.setNext hdmem (some newtimer)
  have hring : SlotRing { c with timers := mem₄ } i (d :: newtimer :: ds) :=
    ⟨hhead, hr₀.insert hmem hnot r₄⟩
  refine ⟨{ c with timers := mem₄ }, ?_, ?_, dataOf_relinked r₄, rfl⟩
  · simp only [addTimer, hslot, ok_bind, headAt_eq c hi, hhead]
    rw [hl₀, ok_bind, hnext₀, h₁, ok_bind, hl₁, ok_bind, hnext₁, h₂, ok_bind, h₃, ok_bind, h₄]
    rfl
  · -- a timer of another slot is neither the head nor the timer behind it
    have hother : ∀ a, slotOf c a ≠ some (i : Int) → a ∉ d :: ds :=
      fun a ha hmem => ha ((hds a).mp hmem)
    have hhd : ds.headD d ∈ d :: ds := by cases ds <;> simp
    refine hc.add hnew hi rfl (dataOf_relinked r₄) (fun j _ => rfl) hring ?_ ?_ ?_
    · intro a
      rw [← hds a]
      simp only [List.mem_cons]
      tauto
    · intro a ha hne
      have had : a ≠ d := fun e => hother a hne (e ▸ List.mem_cons_self)
      simp only [r₄.next, nextOf_insert, Function.update_of_ne had,
        Function.update_of_ne (hold a ha)]
    · intro a ha hne
      have hahd : a ≠ ds.headD d := fun e => hother a hne (e ▸ hhd)
      simp only [r₄.prev, prevOf_insert, Function.update_of_ne hahd,
        Function.update_of_ne (hold a ha)]

/-- **`add_timer`** with an index in the array adds a timer and keeps the rings. -/
theorem addTimer_spec (hc : RingsSound c) (hnew : newtimer ∉ c.timers) (hi : i < slotNums)
    (hslot : timerSlot c.m_slot_sec hours mins secs = .ok (rotation, (i : Int)))
    (my_callback data : Nat) :
    ∃ c', addTimer c newtimer hours mins secs my_callback data = .ok c' ∧
      Added c c' newtimer ⟨rotation, i, data, my_callback⟩ := by
  obtain ⟨xs, hring, hxs⟩ := hc.ring i hi
  cases xs with
  | nil =>
      have hempty : ∀ a, slotOf c a ≠ some (i : Int) :=
        fun a ha => List.not_mem_nil ((hxs a).mpr ha)
      exact addTimer_first hc hnew hi hslot hring hempty my_callback data
  | cons d ds => exact addTimer_behind hc hnew hi hslot hring.1 hring.2 hxs my_callback data

end

/-! ## delete_timer -/

section

variable {c : Clock} {timer i d : Nat} {before behind : List Nat} {mem : Timers}

/-- A timer behind the head is unlinked and freed. -/
theorem RingsSound.remove (hc : RingsSound c) (hi : i < slotNums)
    (hhead : c.m_slot_timer_head i = some d) (hr : Ring c.timers d (before ++ timer :: behind))
    (hxs : ∀ a, a ∈ d :: (before ++ timer :: behind) ↔ slotOf c a = some (i : Int))
    (hrel : Relinked c.timers mem
      (update (nextOf c.timers) (before.getLastD d) (some (behind.headD d)))
      (update (prevOf c.timers) (behind.headD d) (some (before.getLastD d)))) :
    RingsSound { c with timers := mem.erase timer } := by
  have hnot : timer ∉ d :: (before ++ behind) := by
    have hnodup := (List.perm_middle.cons d).nodup_iff.mp hr.nodup
    rw [List.nodup_cons, List.nodup_cons, List.mem_cons, not_or] at hnodup
    rw [List.mem_cons, not_or]
    exact ⟨fun e => hnodup.1.1 e.symm, hnodup.2.1⟩
  have hring : SlotRing { c with timers := mem.erase timer } i (d :: (before ++ behind)) :=
    ⟨hhead, (hr.unlink hrel).erase hnot⟩
  have hself : slotOf { c with timers := mem.erase timer } timer = none := by
    simp only [slotOf, dataOf_erase, Function.update_self, Option.map_none]
  have hslots : ∀ a ≠ timer, slotOf { c with timers := mem.erase timer } a = slotOf c a := by
    intro a ha
    simp only [slotOf, dataOf_erase, Function.update_of_ne ha, hrel.data]
  -- a timer of another slot is no neighbour of the one that goes
  have hlast : before.getLastD d ∈ d :: (before ++ timer :: behind) := by
    rw [← List.cons_append]
    exact List.mem_append_left _ List.getLastD_mem_cons
  have hfirst : behind.headD d ∈ d :: (before ++ timer :: behind) := by cases behind <;> simp
  have hother : ∀ a, slotOf c a ≠ some (i : Int) → ∀ b ∈ d :: (before ++ timer :: behind), a ≠ b :=
    fun a ha b hb e => ha ((hxs a).mp (e ▸ hb))
  refine hc.change hi timer ?_ ?_ hslots (fun j _ => rfl) ⟨_, hring, fun a => ?_⟩ ?_ ?_
  · simp [(hxs timer).mp (by simp)]
  · simp [hself]
  · by_cases ha : a = timer
    · subst ha
      rw [hself]
      exact iff_of_false hnot (by simp)
    · rw [hslots a ha, ← hxs a]
      simp [ha]
  · intro a _ ha
    change nextOf (mem.erase timer) a = nextOf c.timers a
    simp only [nextOf_erase, hrel.next, Function.update_of_ne (hother a ha _ hlast),
      Function.update_of_ne (hother a ha timer (by simp))]
  · intro a _ ha
    change prevOf (mem.erase timer) a = prevOf c.timers a
    simp only [prevOf_erase, hrel.prev, Function.update_of_ne (hother a ha _ hfirst),
      Function.update_of_ne (hother a ha timer (by simp))]

/-- **`delete_timer`** of a timer that is no head keeps the rings. -/
theorem deleteTimer_spec (hc : RingsSound c) (hmem : timer ∈ c.timers)
    (hhead : ∀ i < slotNums, c.m_slot_timer_head i ≠ some timer) :
    ∃ timers, deleteTimer c (some timer) = .ok { c with timers } ∧
      RingsSound { c with timers } := by
  obtain ⟨i, hi, hslot⟩ := hc.live timer hmem
  obtain ⟨xs, hring, hxs⟩ := hc.ring i hi
  have hin := (hxs timer).mpr hslot
  cases xs with
  | nil => exact absurd hin List.not_mem_nil
  | cons d ds =>
      obtain ⟨hd, hr⟩ := hring
      obtain rfl | hin := List.mem_cons.mp hin
      · exact absurd hd (hhead i hi)
      obtain ⟨before, behind, rfl⟩ := List.append_of_mem hin
      obtain ⟨hnext, hprev⟩ := hr.links
      obtain ⟨⟨hlast, -⟩, hfirst, hne⟩ := hr.neighbours
      obtain ⟨t, ht, htn, htp, -⟩ := (Relinked.refl c.timers).load hmem
      rw [hnext] at htn
      rw [hprev] at htp
      obtain ⟨mem₁, h₁, r₁⟩ := (Relinked.refl c.timers).setNext hlast (some (behind.headD d))
      obtain ⟨mem₂, h₂, r₂⟩ := r₁.setPrev hfirst (some (before.getLastD d))
      have hfree : free mem₂ (some timer) = .ok (mem₂.erase timer) :=
        free_ok ((r₂.mem timer).mpr hmem)
      have hne' : some (behind.headD d) ≠ some timer := fun e => hne (Option.some.inj e).symm
      refine ⟨mem₂.erase timer, ?_, hc.remove hi hd hr hxs r₂⟩
      simp only [deleteTimer, ht, ok_bind, htn, htp, h₁, h₂, hfree, ne_eq, hne', not_false_eq_true,
        if_true, pure_eq_ok]

end

/-! ## start_tick -/

section

variable {c : Clock} {timers : Timers} {rotation slot : Int} {a d fuel : Nat} {xs : List Nat}

/-- What a tick commits for the timer at an address. -/
def commitsAt (timers : Timers) (rotation slot : Int) (a : Nat) : List Commit :=
  (dataOf timers a).elim [] (commitOf rotation slot (some a))

/-- What is committed of a timer depends on its own rotation and slot. -/
theorem commitsAt_eq {t : TimerData} (h : dataOf timers a = some t) :
    commitsAt timers rotation slot a = commitOf rotation slot (some a) t := by
  rw [commitsAt, h]
  rfl

/-- The loop of `start_tick` goes once around the ring. -/
theorem tickLoop_eq (hmem : ∀ b ∈ a :: xs, b ∈ timers)
    (hseg : Seg (nextOf timers) (prevOf timers) a xs d) (hd : d ∉ xs) (hfuel : xs.length < fuel) :
    tickLoop timers rotation slot (some d) fuel (some a) =
      .ok ((a :: xs).flatMap (commitsAt timers rotation slot)) := by
  induction xs generalizing a fuel with
  | nil =>
      obtain ⟨t, ht, hnext, -, hdata⟩ := (Relinked.refl timers).load (hmem a List.mem_cons_self)
      rw [hseg.1] at hnext
      cases fuel with
      | zero => simp at hfuel
      | succ fuel =>
          rw [tickLoop, ht, ok_bind, hnext, if_neg (by simp), List.flatMap_singleton,
            commitsAt_eq hdata, pure_eq_ok]
  | cons x xs ih =>
      obtain ⟨t, ht, hnext, -, hdata⟩ := (Relinked.refl timers).load (hmem a List.mem_cons_self)
      rw [hseg.1.1] at hnext
      cases fuel with
      | zero => simp at hfuel
      | succ fuel =>
          have hxd : x ≠ d := fun e => hd (e ▸ List.mem_cons_self)
          have hrest := ih (fun b hb => hmem b (List.mem_cons_of_mem a hb)) hseg.2
            (fun hmem => hd (List.mem_cons_of_mem x hmem)) (by simpa using hfuel)
          rw [tickLoop, ht, ok_bind, hnext, if_pos ⟨by simp, by simpa using hxd⟩, hrest, ok_bind,
            ← commitsAt_eq hdata]
          simp only [List.flatMap_cons, pure_eq_ok]

/-- There are no more timers in a ring than there are timers. -/
theorem ring_length_le (hr : Ring timers d xs) : (d :: xs).length ≤ timers.keys.length :=
  (List.subperm_of_subset hr.nodup fun b hb => AList.mem_keys.mp (hr.mem b hb)).length_le

/-- **A tick** commits the timers of its slot whose rotation it is. -/
theorem commitTimers_eq (hc : RingsSound c) {i : Nat} (hi : i < slotNums)
    (hslot : c.m_current_slot_num = i) :
    ∃ xs : List Nat, xs.Nodup ∧ (∀ a, a ∈ xs ↔ slotOf c a = some (i : Int)) ∧
      commitTimers c = .ok (xs.flatMap (commitsAt c.timers c.m_current_rotation_num i)) := by
  obtain ⟨xs, hring, hxs⟩ := hc.ring i hi
  refine ⟨xs, ?_, hxs, ?_⟩
  · cases xs with
    | nil => exact List.nodup_nil
    | cons d ds => exact hring.2.nodup
  · rw [commitTimers, hslot, headAt_eq c hi, ok_bind]
    cases xs with
    | nil =>
        rw [hring]
        rfl
    | cons d ds =>
        obtain ⟨hd, hr⟩ := hring
        have hlen := ring_length_le hr
        rw [hd]
        exact tickLoop_eq hr.mem hr.seg (List.nodup_cons.mp hr.nodup).1 (by simp at hlen; omega)

end

/-! ## clear_all_timer -/

/-- The slots from `n` on are sound and have all timers. -/
structure SoundFrom (n : Nat) (c : Clock) : Prop where
  ring : ∀ i, n ≤ i → i < slotNums → SlotSound c i
  live : ∀ a ∈ c.timers, ∃ i, n ≤ i ∧ i < slotNums ∧ slotOf c a = some (i : Int)

section

variable {c : Clock} {timers₀ timers : Timers} {a d fuel n : Nat} {xs : List Nat}

/-- The inner loop of `clear_all_timer` frees what is behind the head.  The links are
those of the heap it begins with: every timer is read before it is freed. -/
theorem clearLoop_spec (hseg : Seg (nextOf timers₀) (prevOf timers₀) a xs d) (hnodup : xs.Nodup)
    (hd : d ∉ xs) (hmem : ∀ b ∈ xs, b ∈ timers₀)
    (hsame : ∀ b ∈ xs, timers.lookup b = timers₀.lookup b) (hfuel : xs.length < fuel) :
    ∃ timers', clearLoop (some d) fuel timers (some (xs.headD d)) = .ok timers' ∧
      ∀ b, timers'.lookup b = if b ∈ xs then none else timers.lookup b := by
  induction xs generalizing a timers fuel with
  | nil =>
      cases fuel with
      | zero => simp at hfuel
      | succ fuel => exact ⟨timers, by simp [clearLoop], by simp⟩
  | cons x xs ih =>
      obtain ⟨t, ht⟩ := lookup_of_mem (hmem x List.mem_cons_self)
      have hx : timers.lookup x = some t := (hsame x List.mem_cons_self).trans ht
      have hnext : t.next = some (xs.headD d) := by
        have hnx : nextOf timers₀ x = t.next := by rw [nextOf, ht]; rfl
        rw [← hnx]
        cases xs with
        | nil => exact hseg.2.1
        | cons y ys => exact hseg.2.1.1
      obtain ⟨hxs, hnodup⟩ := List.nodup_cons.mp hnodup
      cases fuel with
      | zero => simp at hfuel
      | succ fuel =>
          have hxd : x ≠ d := fun e => hd (e ▸ List.mem_cons_self)
          have hsame' : ∀ b ∈ xs, (timers.erase x).lookup b = timers₀.lookup b := by
            intro b hb
            have hbx : b ≠ x := fun e => hxs (e ▸ hb)
            rw [lookup_erase_eq_ite, if_neg hbx, hsame b (List.mem_cons_of_mem x hb)]
          obtain ⟨timers', hloop, hlookup⟩ := ih hseg.2 hnodup
            (fun hmem => hd (List.mem_cons_of_mem x hmem))
            (fun b hb => hmem b (List.mem_cons_of_mem x hb)) hsame' (by simpa using hfuel)
          refine ⟨timers', ?_, fun b => ?_⟩
          · rw [clearLoop, List.headD_cons, if_pos ⟨by simp, by simpa using hxd⟩, load_ok hx,
              ok_bind, free_ok (mem_of_lookup hx), ok_bind, hnext, hloop]
          · rw [hlookup, lookup_erase_eq_ite]
            by_cases hbx : b = x <;> simp [hbx, hxs]

theorem slotOf_eq_of_lookup {c c' : Clock} (h : c'.timers.lookup a = c.timers.lookup a) :
    slotOf c' a = slotOf c a := by
  simp only [slotOf, dataOf, h]

/-- The timers of a slot are freed, and the others are left alone. -/
theorem SoundFrom.clear (hc : SoundFrom n c)
    (hxs : ∀ b, b ∈ xs ↔ slotOf c b = some (n : Int))
    (hlookup : ∀ b, timers.lookup b = if b ∈ xs then none else c.timers.lookup b)
    (heads : Nat → Ptr) (hheads : ∀ i ≠ n, heads i = c.m_slot_timer_head i) :
    SoundFrom (n + 1) { c with timers, m_slot_timer_head := heads } := by
  have hkept : ∀ b, slotOf c b ≠ some (n : Int) → timers.lookup b = c.timers.lookup b := by
    intro b hb
    rw [hlookup, if_neg fun hmem => hb ((hxs b).mp hmem)]
  have hfreed : ∀ b, slotOf c b = some (n : Int) → timers.lookup b = none := by
    intro b hb
    rw [hlookup, if_pos ((hxs b).mpr hb)]
  have hother : ∀ {i : Nat}, n + 1 ≤ i → ∀ b, slotOf c b = some (i : Int) →
      slotOf c b ≠ some (n : Int) := by
    intro i hi b hb
    rw [hb]
    simp only [ne_eq, Option.some.injEq]
    omega
  have hslots : ∀ b, slotOf { c with timers, m_slot_timer_head := heads } b =
      if slotOf c b = some (n : Int) then none else slotOf c b := by
    intro b
    split
    · next hb => simp only [slotOf, dataOf, hfreed b hb, Option.map_none]
    · next hb => exact slotOf_eq_of_lookup (hkept b hb)
  refine ⟨fun i hi hi' => ?_, fun b hb => ?_⟩
  · refine (hc.ring i (by omega) hi').frame (hheads i (by omega)) (fun b => ?_) ?_ ?_
    · rw [hslots]
      split
      · next hb =>
          rw [hb]
          simp only [reduceCtorEq, Option.some.injEq, false_iff]
          omega
      · rfl
    · intro b hb
      simp only [nextOf, hkept b (hother hi b hb)]
    · intro b hb
      simp only [prevOf, hkept b (hother hi b hb)]
  · obtain ⟨slot, hslot⟩ := mem_iff_slotOf.mp hb
    rw [hslots] at hslot
    split at hslot
    · cases hslot
    · next hne =>
        obtain ⟨i, hi, hi', hsi⟩ := hc.live b (mem_of_slotOf hslot)
        refine ⟨i, ?_, hi', by rw [hslots, if_neg hne, hsi]⟩
        have : i ≠ n := fun e => hne (e ▸ hsi)
        omega

/-- **`clear_all_timer`** frees the timers of one slot. -/
theorem clearSlot_spec (hc : SoundFrom n c) (hn : n < slotNums) :
    ∃ c', clearSlot c n = .ok c' ∧ SoundFrom (n + 1) c' := by
  obtain ⟨xs, hring, hxs⟩ := hc.ring n (Nat.le_refl n) hn
  cases xs with
  | nil =>
      refine ⟨c, by rw [clearSlot, hring], ?_⟩
      exact hc.clear hxs (by simp) c.m_slot_timer_head fun _ _ => rfl
  | cons d ds =>
      obtain ⟨hd, hr⟩ := hring
      obtain ⟨hdds, hnodup⟩ := List.nodup_cons.mp hr.nodup
      have hlen := ring_length_le hr
      obtain ⟨h, hload, hnext, -⟩ := (Relinked.refl c.timers).load (hr.mem d List.mem_cons_self)
      rw [hr.next_sentinel] at hnext
      obtain ⟨timers', hloop, hlookup⟩ := clearLoop_spec hr.seg hnodup hdds
        (fun b hb => hr.mem b (List.mem_cons_of_mem d hb)) (fun _ _ => rfl)
        (show ds.length < c.timers.keys.length + 1 by simp at hlen; omega)
      have hdmem : d ∈ timers' := by
        obtain ⟨n, hn⟩ := lookup_of_mem (hr.mem d List.mem_cons_self)
        exact mem_of_lookup ((hlookup d).trans (by rw [if_neg hdds, hn]))
      refine ⟨{ c with
          timers := timers'.erase d, m_slot_timer_head := update c.m_slot_timer_head n none },
        ?_, hc.clear hxs (fun b => ?_) _ fun i hi => Function.update_of_ne hi _ _⟩
      · simp only [clearSlot, hd, hload, ok_bind, hnext, hloop, free_ok hdmem, pure_eq_ok]
      · rw [lookup_erase_eq_ite, hlookup]
        by_cases hbd : b = d <;> simp [hbd]

/-- The first slots are cleared without a fault. -/
theorem clearSlots_spec (hc : RingsSound c) (hn : n ≤ slotNums) :
    ∃ c', (List.range n).foldlM clearSlot c = .ok c' ∧ SoundFrom n c' := by
  induction n with
  | zero =>
      refine ⟨c, rfl, fun i _ hi => hc.ring i hi, fun a ha => ?_⟩
      obtain ⟨i, hi, hslot⟩ := hc.live a ha
      exact ⟨i, Nat.zero_le i, hi, hslot⟩
  | succ n ih =>
      obtain ⟨c₁, h₁, hc₁⟩ := ih (by omega)
      obtain ⟨c₂, h₂, hc₂⟩ := clearSlot_spec hc₁ (by omega)
      refine ⟨c₂, ?_, hc₂⟩
      rw [List.range_succ, List.foldlM_append, h₁, ok_bind, List.foldlM_cons, h₂, ok_bind,
        List.foldlM_nil]
      rfl

/-- **`clear_all_timer`** frees every timer, and each one once. -/
theorem clearAllTimer_spec (hc : RingsSound c) :
    ∃ c', clearAllTimer c = .ok c' ∧ ∀ a, a ∉ c'.timers := by
  obtain ⟨c', hclear, hc'⟩ := clearSlots_spec hc (Nat.le_refl slotNums)
  refine ⟨c', hclear, fun a ha => ?_⟩
  obtain ⟨i, hi, hi', -⟩ := hc'.live a ha
  omega

end

/-! ## runs -/

/-- What is called on a clock. -/
inductive Call
  | addTimer (newtimer : Nat) (hours mins secs : Int) (my_callback data : Nat)
  | deleteTimer (timer : Nat)
  /-- the `select` of `start_tick` times out -/
  | tick
  deriving DecidableEq

/-- What a call does, and what it commits. -/
def step (c : Clock) : Call → Except Fault (Clock × List Commit)
  | .addTimer newtimer hours mins secs my_callback data => do
      let c ← addTimer c newtimer hours mins secs my_callback data
      return (c, [])
  | .deleteTimer timer => do
      let c ← deleteTimer c (some timer)
      return (c, [])
  | .tick => tick c

/-- `malloc` returns fresh memory, and only live timers are deleted. -/
def Allowed (c : Clock) : Call → Prop
  | .addTimer newtimer _ _ _ _ _ => newtimer ∉ c.timers
  | .deleteTimer timer => timer ∈ c.timers
  | .tick => True

instance (c : Clock) (call : Call) : Decidable (Allowed c call) :=
  match call with
  | .addTimer newtimer _ _ _ _ _ => inferInstanceAs (Decidable (newtimer ∉ c.timers))
  | .deleteTimer timer => inferInstanceAs (Decidable (timer ∈ c.timers))
  | .tick => inferInstanceAs (Decidable True)

/-- The index that `add_timer` computes is in the array, and the timer that is deleted is
not the head of a ring. -/
def Harmless (c : Clock) : Call → Prop
  | .addTimer _ hours mins secs _ _ =>
      ∃ rotation : Int, ∃ i < slotNums, timerSlot c.m_slot_sec hours mins secs = .ok (rotation, i)
  | .deleteTimer timer => ∀ i < slotNums, c.m_slot_timer_head i ≠ some timer
  | .tick => True

instance (c : Clock) (call : Call) : Decidable (Harmless c call) :=
  match call with
  | .addTimer _ hours mins secs _ _ =>
      match h : timerSlot c.m_slot_sec hours mins secs with
      | .ok (rotation, slot) =>
          decidable_of_iff (0 ≤ slot ∧ slot < slotNums) (by
            simp only [Harmless, h, Except.ok.injEq, Prod.mk.injEq]
            constructor
            · rintro ⟨hpos, hlt⟩
              exact ⟨rotation, slot.toNat, by omega, rfl, by omega⟩
            · rintro ⟨_, i, hi, -, rfl⟩
              omega)
      | .error _ => .isFalse (by simp [Harmless, h])
  | .deleteTimer timer =>
      inferInstanceAs (Decidable (∀ i < slotNums, c.m_slot_timer_head i ≠ some timer))
  | .tick => inferInstanceAs (Decidable True)

/-- The rings are sound, and the current slot is one of them. -/
structure Sound (c : Clock) : Prop where
  rings : RingsSound c
  slot : ∃ i < slotNums, c.m_current_slot_num = (i : Int)

section

variable {c c' : Clock} {call : Call} {commits : List Commit}

/-- The timers of a slot are gone through without a fault. -/
theorem commitTimers_ok (hc : Sound c) : ∃ commits, commitTimers c = .ok commits := by
  obtain ⟨i, hi, hslot⟩ := hc.slot
  obtain ⟨xs, -, -, hcommits⟩ := commitTimers_eq hc.rings hi hslot
  exact ⟨_, hcommits⟩

/-- The counters do not matter to the rings. -/
theorem RingsSound.counters (hc : RingsSound c) (rotation slot : Int) :
    RingsSound { c with m_current_rotation_num := rotation, m_current_slot_num := slot } :=
  ⟨fun j hj => hc.ring j hj, hc.live⟩

/-- The counters go on to another slot, and nothing else changes. -/
theorem advance_slot (hc : Sound c) (h : advance c = .ok c') : Sound c' := by
  obtain ⟨i, hi, hslot⟩ := hc.slot
  rw [advance] at h
  obtain ⟨⟨rotation, slot⟩, hnext, h⟩ := bind_eq_ok.mp h
  have hbound : ∃ j < slotNums, slot = (j : Int) := by
    rw [nextCounters] at hnext
    split at hnext
    · split at hnext
      · cases hnext
        exact ⟨0, by decide, rfl⟩
      · cases hnext
    · cases hnext
      exact ⟨i + 1, by omega, by omega⟩
  dsimp only at h
  split at h
  · cases h
    exact ⟨hc.rings.counters 0 0, 0, by decide, rfl⟩
  · cases h
    exact ⟨hc.rings.counters rotation slot, hbound⟩

/-- The counters fault only when the rotations overflow. -/
theorem advance_overflow {fault : Fault} (h : advance c = .error fault) : fault = .overflow := by
  rw [advance] at h
  obtain h | ⟨⟨rotation, slot⟩, -, h⟩ := bind_eq_error.mp h
  · rw [nextCounters] at h
    split at h
    · split at h
      · cases h
      · cases h
        rfl
    · cases h
  · dsimp only at h
    split at h
    all_goals cases h

/-- A timer with an index in the array is added to a sound clock. -/
theorem Sound.addTimer (hc : Sound c) {newtimer : Nat} {hours mins secs : Int}
    {my_callback data : Nat}
    (hallowed : Allowed c (.addTimer newtimer hours mins secs my_callback data))
    (hharmless : Harmless c (.addTimer newtimer hours mins secs my_callback data)) :
    ∃ c', addTimer c newtimer hours mins secs my_callback data = .ok c' ∧ Sound c' := by
  obtain ⟨rotation, i, hi, hslot⟩ := hharmless
  obtain ⟨c', hadd, hc'⟩ := addTimer_spec hc.rings hallowed hi hslot my_callback data
  refine ⟨c', hadd, hc'.sound, ?_⟩
  rw [hc'.same]
  exact hc.slot

/-- A timer that is no head is deleted from a sound clock. -/
theorem Sound.deleteTimer (hc : Sound c) {timer : Nat} (hallowed : Allowed c (.deleteTimer timer))
    (hharmless : Harmless c (.deleteTimer timer)) :
    ∃ c', deleteTimer c (some timer) = .ok c' ∧ Sound c' := by
  obtain ⟨timers, hdelete, hc'⟩ := deleteTimer_spec hc.rings hallowed hharmless
  exact ⟨_, hdelete, hc', hc.slot⟩

/-- **One call** that does no harm keeps the rings. -/
theorem Sound.step (hc : Sound c) (hallowed : Allowed c call) (hharmless : Harmless c call)
    (h : Clock.step c call = .ok (c', commits)) : Sound c' := by
  cases call with
  | addTimer newtimer hours mins secs my_callback data =>
      obtain ⟨c₁, hadd, hc₁⟩ := hc.addTimer hallowed hharmless
      simp only [Clock.step, hadd, ok_bind] at h
      cases h
      exact hc₁
  | deleteTimer timer =>
      obtain ⟨c₁, hdelete, hc₁⟩ := hc.deleteTimer hallowed hharmless
      simp only [Clock.step, hdelete, ok_bind] at h
      cases h
      exact hc₁
  | tick =>
      obtain ⟨_, -, h⟩ := bind_eq_ok.mp h
      obtain ⟨c₁, hadvance, h⟩ := bind_eq_ok.mp h
      cases h
      exact advance_slot hc hadvance

/-- No call that does no harm touches a timer that is freed. -/
theorem step_not_dangling (hc : Sound c) (hallowed : Allowed c call)
    (hharmless : Harmless c call) {fault : Fault} (h : Clock.step c call = .error fault) :
    fault = .overflow := by
  cases call with
  | addTimer newtimer hours mins secs my_callback data =>
      obtain ⟨c₁, hadd, -⟩ := hc.addTimer hallowed hharmless
      simp only [Clock.step, hadd, ok_bind] at h
      cases h
  | deleteTimer timer =>
      obtain ⟨c₁, hdelete, -⟩ := hc.deleteTimer hallowed hharmless
      simp only [Clock.step, hdelete, ok_bind] at h
      cases h
  | tick =>
      obtain ⟨commits, hcommits⟩ := commitTimers_ok hc
      simp only [Clock.step, tick, hcommits, ok_bind] at h
      obtain h | ⟨c₁, -, h⟩ := bind_eq_error.mp h
      · exact advance_overflow h
      · cases h

end

/-- **The rings**: in every state that calls reach which keep to the slots and delete no
head of a ring, every ring goes once through the live timers of its slot and back, both
ways; and no call, no tick and no clearing touches a timer that is freed. -/
theorem rings_sound (sec circle_num_secs slot_num_secs : Int) {t : List (Call × List Commit)}
    {c : Clock}
    (h : Run step (fun c call => Allowed c call ∧ Harmless c call)
      (init sec circle_num_secs slot_num_secs) t c) :
    RingsSound c ∧ (∃ commits, commitTimers c = .ok commits) ∧
      (∃ c', clearAllTimer c = .ok c' ∧ ∀ a, a ∉ c'.timers) ∧
      ∀ call fault, Allowed c call → Harmless c call → step c call = .error fault →
        fault = .overflow := by
  have hinit : Sound (init sec circle_num_secs slot_num_secs) :=
    ⟨rings_init sec circle_num_secs slot_num_secs, 0, by decide, rfl⟩
  have hc : Sound c := by
    refine h.invariant (I := fun _ c => Sound c) hinit ?_
    intro _ c call c' commits hc hok hstep
    exact hc.step hok.1 hok.2 hstep
  exact ⟨hc.rings, commitTimers_ok hc, clearAllTimer_spec hc.rings,
    fun call fault hallowed hharmless hstep => step_not_dangling hc hallowed hharmless hstep⟩

/-- Two timers in a slot, the second of which is deleted. -/
theorem rings_sound_second :
    ∃ t c, Run step (fun c call => Allowed c call ∧ Harmless c call) (init 1 100 0) t c ∧
      t.map Prod.fst = [.addTimer 0 0 0 1 7 8, .addTimer 1 0 0 1 7 8, .deleteTimer 1] ∧
      RingsSound c := by
  have hreplay : (replay step (fun c call => Allowed c call ∧ Harmless c call) (init 1 100 0)
      [.addTimer 0 0 0 1 7 8, .addTimer 1 0 0 1 7 8, .deleteTimer 1]).map
        (fun r => r.1.map Prod.fst) =
      some [.addTimer 0 0 0 1 7 8, .addTimer 1 0 0 1 7 8, .deleteTimer 1] := by
    decide +kernel
  obtain ⟨⟨t, c⟩, hr, hcalls⟩ := Option.map_eq_some_iff.mp hreplay
  have hrun := Run.nil.replay hr
  exact ⟨_, c, hrun, hcalls, (rings_sound 1 100 0 hrun).1⟩

/-- The only timer of a slot is deleted and stays the head of its slot: the next tick
there, and the clearing, follow it. -/
theorem deleted_head_dangles :
    ∃ t c, Run step Allowed (init 1 100 0) t c ∧ ¬ RingsSound c ∧
      commitTimers c = .error .dangling ∧ (∀ c', clearAllTimer c ≠ .ok c') := by
  have hreplay : (replay step Allowed (init 1 100 0)
      [.addTimer 0 0 0 1 7 8, .deleteTimer 0, .tick]).map
        (fun r => (r.2.m_slot_timer_head 1, (r.2.timers.lookup 0).isSome, commitTimers r.2,
          (clearAllTimer r.2).toOption.isSome)) =
      some (some 0, false, .error .dangling, false) := by
    decide +kernel
  obtain ⟨⟨t, c⟩, hr, hstate⟩ := Option.map_eq_some_iff.mp hreplay
  simp only [Prod.mk.injEq] at hstate
  obtain ⟨hhead, hfreed, hcommit, hclear⟩ := hstate
  refine ⟨_, c, Run.nil.replay hr, fun hc => ?_, hcommit, fun c' hc' => ?_⟩
  · obtain ⟨xs, hring, -⟩ := hc.ring 1 (by decide)
    have hmem : 0 ∈ c.timers := by
      cases xs with
      | nil => simp [SlotRing, hhead] at hring
      | cons d ds =>
          obtain ⟨hd, hr⟩ := hring
          rw [hhead] at hd
          cases hd
          exact hr.mem 0 List.mem_cons_self
    rw [← AList.lookup_isSome, hfreed] at hmem
    cases hmem
  · rw [hc'] at hclear
    cases hclear

end Clock
end MySrc
