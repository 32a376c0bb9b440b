import MySrc.TouchServer.FilterConfig

/-!
# MySrc.TouchServer.UpdateConfigs

`do_update_configs` of `xlgame_touch_server/src/filters/filter_config.cpp`: the four maps are
filled anew from the tables, and the counters of the old configurations are deleted.

The calls to the database and to redis may have any results (`Remote`).  `update_faithful_iff`
says when the refresh is all or nothing and each map is that of its own table.
-/

namespace MySrc
namespace TouchServer

open Lib

/-! ## rows -/

/-- A row of a result, by column. -/
abbrev Row := StringMap

/-- `string_map_vector` -/
abbrev Reply := List Row

def uniqTagColumn : Str := ascii ['u', 'n', 'i', 'q', '_', 't', 'a', 'g']

def controlIdentityColumn : Str :=
  ascii ['c', 'o', 'n', 't', 'r', 'o', 'l', '_', 'i', 'd', 'e', 'n', 't', 'i', 't', 'y']

def estimatedValueColumn : Str :=
  ascii ['e', 's', 't', 'i', 'm', 'a', 't', 'e', 'd', '_', 'v', 'a', 'l', 'u', 'e']

def typeColumn : Str := ascii ['t', 'y', 'p', 'e']

def dataColumn : Str := ascii ['d', 'a', 't', 'a']

def configidColumn : Str := ascii ['c', 'o', 'n', 'f', 'i', 'g', 'i', 'd']

/-- `"UNIX_TIMESTAMP(valid_start_unixtime)"` -/
def validStartUnixtimeColumn : Str :=
  ascii ['U', 'N', 'I', 'X', '_', 'T', 'I', 'M', 'E', 'S', 'T', 'A', 'M', 'P', '(', 'v', 'a', 'l',
    'i', 'd', '_', 's', 't', 'a', 'r', 't', '_', 'u', 'n', 'i', 'x', 't', 'i', 'm', 'e', ')']

def volumnColumn : Str := ascii ['v', 'o', 'l', 'u', 'm', 'n']

/-- `"regular_rtn_content_conf"` -/
def regularRtnContentConfColumn : Str :=
  ascii ['r', 'e', 'g', 'u', 'l', 'a', 'r', '_', 'r', 't', 'n', '_', 'c', 'o', 'n', 't', 'e', 'n',
    't', '_', 'c', 'o', 'n', 'f']

/-- A row of the tables of the conditions. -/
def condConfigOfRow (row : Row) : CondConfig where
  m_uniq_tag := getValue uniqTagColumn row
  m_control_identity := getValue controlIdentityColumn row
  m_estimated_value := getValue estimatedValueColumn row

def fixedContentOfRow (row : Row) : FixedContentResponseConfig where
  m_uniq_tag := getValue uniqTagColumn row
  m_type := getValue typeColumn row
  m_estimated_value := getValue estimatedValueColumn row

def businessConfigOfRow (row : Row) : BusinessConfig where
  m_configid := getValue configidColumn row
  m_valid_start_unixtime := getValue validStartUnixtimeColumn row
  m_regular_conf := getValue regularConfKey row
  m_unregular_conf := getValue unregularConfKey row
  m_volumn := getValue volumnColumn row
  m_regular_rtn_content_conf := getValue regularRtnContentConfColumn row
  m_unregular_rtn_content_conf := getValue unregularRtnContentConfKey row
  m_task_conf := getValue taskConfKey row

/-! ## the refresh -/

/-- What the calls of a refresh return.  A read that fails has no rows, and the calls of a loop
are known by its index. -/
structure Remote where
  reply_1 : Option Reply
  reply_2 : Option Reply
  reply_3 : Option Reply
  reply_4 : Option Reply
  /-- the read of `business_uid_list` for a `bizid` -/
  select : Nat → Str → Option Reply
  sadd : Nat → Nat → Str → Str → Int
  expire : Nat → Str → Int
  del : Nat → Str → Int

/-- One iteration of the loop that brings the unrestrict conditions to redis. -/
def updateToRedis (remote : Remote) (row : Row) (i : Nat) : Bool :=
  let key := unrestrictKey (condConfigOfRow row)
  match remote.select i (getValue estimatedValueColumn row) with
  | none => false
  | some reply_select =>
      reply_select = [] ||
        (reply_select.zipIdx.all fun r =>
          remote.sadd i r.2 key (getValue dataColumn r.1) ≠ -1) && remote.expire i key ≠ -1

/-- Up to the lock: the four results, if nothing fails. -/
def load (remote : Remote) : Option (Reply × Reply × Reply × Reply) := do
  let reply_1 ← remote.reply_1
  let reply_2 ← remote.reply_2
  let reply_3 ← remote.reply_3
  let reply_4 ← remote.reply_4
  if reply_4.zipIdx.all fun r => updateToRedis remote r.1 r.2 then
    some (reply_1, reply_2, reply_3, reply_4)
  else none

/-- The loop that deletes the counters: whether it comes to its end.  `del` has the results from
here on. -/
def delLoop : (Nat → Str → Int) → List (Str × Option BusinessConfig) → Except Fault Bool
  | _, [] => .ok true
  | del, e :: rest => do
      let bconfig ← deref e.2
      if del 0 (businessKey bconfig) = -1 then return false
      else delLoop (fun i => del (i + 1)) rest

/-- `insert` of a row of the tables of the conditions. -/
def insertCond (conds : OrdMap Str CondConfig) (row : Row) : OrdMap Str CondConfig :=
  conds.insertNew (condConfigOfRow row).m_uniq_tag (condConfigOfRow row)

/-- The loop that fills `m_unrestrict_cond_config`, with `reply_1.at(i)` for each `i`.  Where that
throws, the map stays as it is. -/
def unrestrictLoop (reply_1 : Reply) :
    List Nat → OrdMap Str CondConfig → Bool × OrdMap Str CondConfig
  | [], conds => (true, conds)
  | i :: rest, conds =>
      match reply_1[i]? with
      | none => (false, conds)
      | some row => unrestrictLoop reply_1 rest (insertCond conds row)

/-- How a call ends. -/
inductive Ending
  | returns (result : Int)
  /-- `std::out_of_range` leaves the function -/
  | throws
  | faults (fault : Fault)
  deriving DecidableEq

/-- A call of `do_update_configs`: how it ends, what the maps are then, and whether `m_rwlock` is
held. -/
structure Updated where
  ending : Ending
  config : FilterConfig
  m_rwlock : Bool

/-- The part behind the deletions, with all the maps cleared. -/
def refill (reply_1 reply_2 reply_3 reply_4 : Reply) : Updated :=
  let unrestrict := unrestrictLoop reply_1 (List.range reply_4.length) .empty
  if unrestrict.1 then
    { ending := .returns 0
      config :=
        { m_unrestrict_cond_config := unrestrict.2
          m_restrict_cond_config := reply_1.foldl insertCond .empty
          m_fixed_content_config := reply_2.foldl (fun fixed row =>
            fixed.insertNew (fixedContentOfRow row).m_uniq_tag (fixedContentOfRow row)) .empty
          m_business_config := reply_3.foldl (fun business row =>
            business.insertNew (businessConfigOfRow row).m_configid
              (some (businessConfigOfRow row))) .empty }
      m_rwlock := false }
  else
    { ending := .throws
      config := ⟨.empty, .empty, .empty, unrestrict.2⟩
      m_rwlock := true }

/-- `do_update_configs` -/
def doUpdateConfigs (remote : Remote) (config : FilterConfig) : Updated :=
  match load remote with
  | none => ⟨.returns (-1), config, false⟩
  | some (reply_1, reply_2, reply_3, reply_4) =>
      -- `m_rwlock.wrlock()`; the three maps are cleared before the first deletion
      let cleared : FilterConfig := ⟨.empty, .empty, config.m_business_config, .empty⟩
      match delLoop remote.del config.m_business_config.entries with
      | .error fault => ⟨.faults fault, cleared, true⟩
      | .ok false => ⟨.returns (-1), cleared, false⟩
      | .ok true => refill reply_1 reply_2 reply_3 reply_4

/-! ## the deletions -/

/-- The deletion for the entry at an index fails. -/
def DelFailsAt (del : Nat → Str → Int) (entries : List (Str × Option BusinessConfig)) (i : Nat) :
    Prop :=
  ∃ key bconfig, entries[i]? = some (key, some bconfig) ∧ del i (businessKey bconfig) = -1

/-- The loop ends at the first deletion that fails or at the first null pointer, whichever comes
first. -/
theorem delLoop_cases (del : Nat → Str → Int) (entries : List (Str × Option BusinessConfig)) :
    (delLoop del entries = .ok true ∧ (∀ (i : Nat) key, entries[i]? ≠ some (key, none)) ∧
        ∀ i, ¬ DelFailsAt del entries i) ∨
      (delLoop del entries = .ok false ∧ (∃ i, DelFailsAt del entries i) ∧
        ∀ (i : Nat) key, entries[i]? = some (key, none) → ∃ j < i, DelFailsAt del entries j) ∨
      (delLoop del entries = .error .nullDeref ∧
        ∃ (i : Nat) (key : Str), entries[i]? = some (key, none) ∧
          ∀ j < i, ¬ DelFailsAt del entries j) := by
  induction entries generalizing del with
  | nil => exact .inl ⟨rfl, by simp, by simp [DelFailsAt]⟩
  | cons e rest ih =>
      obtain ⟨key, p⟩ := e
      cases p with
      | none => exact .inr (.inr ⟨rfl, 0, key, rfl, by simp⟩)
      | some bconfig =>
          have hsucc : ∀ i, DelFailsAt del ((key, some bconfig) :: rest) (i + 1) ↔
              DelFailsAt (fun i => del (i + 1)) rest i := fun i => Iff.rfl
          by_cases hdel : del 0 (businessKey bconfig) = -1
          · have hzero : DelFailsAt del ((key, some bconfig) :: rest) 0 :=
              ⟨key, bconfig, rfl, hdel⟩
            refine .inr (.inl ⟨by simp [delLoop, deref, hdel], ⟨0, hzero⟩, ?_⟩)
            intro i key' hi
            cases i with
            | zero => simp at hi
            | succ i => exact ⟨0, Nat.succ_pos i, hzero⟩
          · have hzero : ¬ DelFailsAt del ((key, some bconfig) :: rest) 0 := by
              rintro ⟨key', bconfig', hfirst, hdel'⟩
              cases hfirst
              exact hdel hdel'
            have hloop : delLoop del ((key, some bconfig) :: rest) =
                delLoop (fun i => del (i + 1)) rest := by
              simp [delLoop, deref, hdel]
            rw [hloop]
            rcases ih (fun i => del (i + 1)) with
              ⟨hok, hnull, hfails⟩ | ⟨hok, ⟨i, hi⟩, hnull⟩ | ⟨herror, i, key', hi, hfails⟩
            · refine .inl ⟨hok, ?_, ?_⟩
              · intro i key'
                cases i with
                | zero => simp
                | succ i => exact hnull i key'
              · intro i
                cases i with
                | zero => exact hzero
                | succ i => exact hfails i
            · refine .inr (.inl ⟨hok, ⟨i + 1, (hsucc i).mpr hi⟩, ?_⟩)
              intro i key' hi
              cases i with
              | zero => simp at hi
              | succ i =>
                  obtain ⟨j, hj, hfails⟩ := hnull i key' hi
                  exact ⟨j + 1, Nat.succ_lt_succ hj, (hsucc j).mpr hfails⟩
            · refine .inr (.inr ⟨herror, i + 1, key', hi, ?_⟩)
              intro j hj
              cases j with
              | zero => exact hzero
              | succ j => exact hfails j (Nat.lt_of_succ_lt_succ hj)

/-! ## what is filled -/

/-- A map holds for each key the first row with it. -/
def Holds (map : OrdMap Str ν) (key : Row → Str) (value : Row → ν) (rows : Reply) : Prop :=
  ∀ q, map.find q = (rows.find? (key · = q)).map value

theorem holds_foldl (key : Row → Str) (value : Row → ν) (rows : Reply) :
    Holds (rows.foldl (fun m row => m.insertNew (key row) (value row)) .empty) key value rows := by
  intro q
  rw [OrdMap.find_foldl_insertNew, OrdMap.find_empty, Option.none_or]

/-- The loop over `reply_1.at(i)` takes the first rows of `reply_1`, and throws where there are
too few of them. -/
theorem unrestrictLoop_range' (reply_1 : Reply) (n i : Nat) (conds : OrdMap Str CondConfig)
    (hi : i ≤ reply_1.length) :
    unrestrictLoop reply_1 (List.range' i n) conds =
      (decide (i + n ≤ reply_1.length), ((reply_1.drop i).take n).foldl insertCond conds) := by
  induction n generalizing i conds with
  | zero => simp [unrestrictLoop, hi]
  | succ n ih =>
      rw [List.range'_succ, unrestrictLoop]
      by_cases hlt : i < reply_1.length
      · rw [List.getElem?_eq_getElem hlt]
        simp only
        rw [ih (i + 1) _ hlt, List.drop_eq_getElem_cons hlt, List.take_succ_cons,
          List.foldl_cons, Nat.add_right_comm, Nat.add_assoc]
      · rw [List.getElem?_eq_none (by omega)]
        have hlength : ¬ i + (n + 1) ≤ reply_1.length := by omega
        have hdrop : reply_1.drop i = [] := List.drop_eq_nil_of_le (by omega)
        simp [hlength, hdrop]

theorem unrestrictLoop_range (reply_1 : Reply) (n : Nat) :
    unrestrictLoop reply_1 (List.range n) .empty =
      (decide (n ≤ reply_1.length), (reply_1.take n).foldl insertCond .empty) := by
  rw [List.range_eq_range', unrestrictLoop_range' reply_1 n 0 .empty (Nat.zero_le _)]
  simp

/-! ## atomic and faithful -/

/-- The key of a row of the tables of the conditions. -/
def tagOfRow (row : Row) : Str := (condConfigOfRow row).m_uniq_tag

/-- A refresh that fails has changed nothing, one that succeeds has filled each map from its own
table, and the lock is free afterwards. -/
structure Faithful (remote : Remote) (config : FilterConfig) : Prop where
  failed : (doUpdateConfigs remote config).ending = .returns (-1) →
    (doUpdateConfigs remote config).config = config
  filled : (doUpdateConfigs remote config).ending = .returns 0 →
    ∃ reply_1 reply_2 reply_3 reply_4,
      remote.reply_1 = some reply_1 ∧ remote.reply_2 = some reply_2 ∧
      remote.reply_3 = some reply_3 ∧ remote.reply_4 = some reply_4 ∧
      Holds (doUpdateConfigs remote config).config.m_restrict_cond_config tagOfRow condConfigOfRow
        reply_1 ∧
      Holds (doUpdateConfigs remote config).config.m_fixed_content_config
        (fun row => (fixedContentOfRow row).m_uniq_tag) fixedContentOfRow reply_2 ∧
      Holds (doUpdateConfigs remote config).config.m_business_config
        (fun row => (businessConfigOfRow row).m_configid)
        (fun row => some (businessConfigOfRow row)) reply_3 ∧
      Holds (doUpdateConfigs remote config).config.m_unrestrict_cond_config tagOfRow
        condConfigOfRow reply_4
  unlocked : (doUpdateConfigs remote config).m_rwlock = false

/-- Before the lock nothing is changed. -/
theorem faithful_of_load_eq_none {remote : Remote} {config : FilterConfig}
    (h : load remote = none) : Faithful remote config := by
  have heq : doUpdateConfigs remote config = ⟨.returns (-1), config, false⟩ := by
    rw [doUpdateConfigs, h]
  constructor
  · intro _
    rw [heq]
  · intro hend
    rw [heq] at hend
    cases hend
  · rw [heq]

theorem load_eq_some {remote : Remote} {reply_1 reply_2 reply_3 reply_4 : Reply}
    (h : load remote = some (reply_1, reply_2, reply_3, reply_4)) :
    remote.reply_1 = some reply_1 ∧ remote.reply_2 = some reply_2 ∧
      remote.reply_3 = some reply_3 ∧ remote.reply_4 = some reply_4 := by
  unfold load at h
  obtain ⟨r₁, h₁, h⟩ := Option.bind_eq_some_iff.mp h
  obtain ⟨r₂, h₂, h⟩ := Option.bind_eq_some_iff.mp h
  obtain ⟨r₃, h₃, h⟩ := Option.bind_eq_some_iff.mp h
  obtain ⟨r₄, h₄, h⟩ := Option.bind_eq_some_iff.mp h
  split at h
  · cases h
    exact ⟨h₁, h₂, h₃, h₄⟩
  · cases h

/-- The three maps of the conditions and the fixed contents are empty. -/
def FilterConfig.Blank (config : FilterConfig) : Prop :=
  config.m_fixed_content_config = .empty ∧ config.m_restrict_cond_config = .empty ∧
    config.m_unrestrict_cond_config = .empty

/-- The rows that are taken for the unrestrict conditions are those of their table, as far as the
first row for each tag goes. -/
def SameConds (reply_1 reply_4 : Reply) : Prop :=
  reply_4.length ≤ reply_1.length ∧
    ∀ tag, ((reply_1.take reply_4.length).find? (tagOfRow · = tag)).map condConfigOfRow =
      (reply_4.find? (tagOfRow · = tag)).map condConfigOfRow

section

variable {remote : Remote} {config : FilterConfig} {reply_1 reply_2 reply_3 reply_4 : Reply}
  (hload : load remote = some (reply_1, reply_2, reply_3, reply_4))

include hload

/-- A deletion that fails comes after the three maps are cleared. -/
theorem faithful_iff_of_del_fails
    (h : delLoop remote.del config.m_business_config.entries = .ok false) :
    Faithful remote config ↔ config.Blank := by
  have heq : doUpdateConfigs remote config =
      ⟨.returns (-1), ⟨.empty, .empty, config.m_business_config, .empty⟩, false⟩ := by
    simp only [doUpdateConfigs, hload, h]
  constructor
  · rintro ⟨hfailed, -, -⟩
    rw [heq] at hfailed
    have hconfig := hfailed rfl
    exact ⟨(congrArg FilterConfig.m_fixed_content_config hconfig).symm,
      (congrArg FilterConfig.m_restrict_cond_config hconfig).symm,
      (congrArg FilterConfig.m_unrestrict_cond_config hconfig).symm⟩
  · rintro ⟨hfixed, hrestrict, hunrestrict⟩
    constructor
    · intro _
      rw [heq]
      cases config
      simp_all
    · intro hend
      rw [heq] at hend
      cases hend
    · rw [heq]

theorem not_faithful_of_del_faults {fault : Fault}
    (h : delLoop remote.del config.m_business_config.entries = .error fault) :
    ¬ Faithful remote config := by
  rintro ⟨-, -, hunlocked⟩
  simp only [doUpdateConfigs, hload, h] at hunlocked
  cases hunlocked

/-- The maps are filled from `reply_1`, `reply_2` and `reply_3`. -/
theorem faithful_iff_of_del_ok
    (h : delLoop remote.del config.m_business_config.entries = .ok true) :
    Faithful remote config ↔ SameConds reply_1 reply_4 := by
  have heq : doUpdateConfigs remote config = refill reply_1 reply_2 reply_3 reply_4 := by
    simp only [doUpdateConfigs, hload, h]
  by_cases hlength : reply_4.length ≤ reply_1.length
  · have hrefill : doUpdateConfigs remote config =
        ⟨.returns 0, ⟨reply_2.foldl (fun fixed row =>
            fixed.insertNew (fixedContentOfRow row).m_uniq_tag (fixedContentOfRow row)) .empty,
          reply_1.foldl insertCond .empty, reply_3.foldl (fun business row =>
            business.insertNew (businessConfigOfRow row).m_configid
              (some (businessConfigOfRow row))) .empty,
          (reply_1.take reply_4.length).foldl insertCond .empty⟩, false⟩ := by
      rw [heq, refill, unrestrictLoop_range]
      simp [hlength]
    have htaken := holds_foldl tagOfRow condConfigOfRow (reply_1.take reply_4.length)
    constructor
    · rintro ⟨-, hfilled, -⟩
      rw [hrefill] at hfilled
      obtain ⟨r₁, r₂, r₃, r₄, -, -, -, h₄, -, -, -, hunrestrict⟩ := hfilled rfl
      rw [(load_eq_some hload).2.2.2] at h₄
      cases h₄
      exact ⟨hlength, fun tag => (htaken tag).symm.trans (hunrestrict tag)⟩
    · rintro ⟨-, hsame⟩
      obtain ⟨h₁, h₂, h₃, h₄⟩ := load_eq_some hload
      constructor
      · intro hend
        rw [hrefill] at hend
        cases hend
      · intro _
        rw [hrefill]
        exact ⟨reply_1, reply_2, reply_3, reply_4, h₁, h₂, h₃, h₄,
          holds_foldl tagOfRow condConfigOfRow reply_1, holds_foldl _ _ reply_2,
          holds_foldl _ _ reply_3, fun tag => (htaken tag).trans (hsame tag)⟩
      · rw [hrefill]
  · constructor
    · rintro ⟨-, -, hunlocked⟩
      rw [heq, refill, unrestrictLoop_range] at hunlocked
      simp [hlength] at hunlocked
    · rintro ⟨hle, -⟩
      exact absurd hle hlength

end

/-- A refresh is atomic and faithful exactly in these cases: it fails before the lock; or no null
pointer is met before a deletion that fails and, where a deletion fails, the maps that are cleared
before it were empty, where none does, the first rows of the table of the restrict conditions are
those of the unrestrict conditions. -/
theorem update_faithful_iff (remote : Remote) (config : FilterConfig) :
    Faithful remote config ↔
      ∀ reply_1 reply_2 reply_3 reply_4,
        load remote = some (reply_1, reply_2, reply_3, reply_4) →
        (∀ (i : Nat) key, config.m_business_config.entries[i]? = some (key, none) →
          ∃ j < i, DelFailsAt remote.del config.m_business_config.entries j) ∧
        ((∃ i, DelFailsAt remote.del config.m_business_config.entries i) → config.Blank) ∧
        ((∀ i, ¬ DelFailsAt remote.del config.m_business_config.entries i) →
          SameConds reply_1 reply_4) := by
  constructor
  · intro hfaithful reply_1 reply_2 reply_3 reply_4 hload
    rcases delLoop_cases remote.del config.m_business_config.entries with
      ⟨hok, hnull, hfails⟩ | ⟨hok, hsome, hnull⟩ | ⟨herror, -⟩
    · exact ⟨fun i key hi => absurd hi (hnull i key), fun ⟨i, hi⟩ => absurd hi (hfails i),
        fun _ => (faithful_iff_of_del_ok hload hok).mp hfaithful⟩
    · exact ⟨hnull, fun _ => (faithful_iff_of_del_fails hload hok).mp hfaithful,
        fun hnone => absurd hsome (not_exists.mpr hnone)⟩
    · exact absurd hfaithful (not_faithful_of_del_faults hload herror)
  · intro h
    cases hload : load remote with
    | none => exact faithful_of_load_eq_none hload
    | some replies =>
        obtain ⟨reply_1, reply_2, reply_3, reply_4⟩ := replies
        obtain ⟨hnull, hblank, hsame⟩ := h reply_1 reply_2 reply_3 reply_4 hload
        rcases delLoop_cases remote.del config.m_business_config.entries with
          ⟨hok, -, hfails⟩ | ⟨hok, hsome, -⟩ | ⟨-, i, key, hi, hfails⟩
        · exact (faithful_iff_of_del_ok hload hok).mpr (hsame hfails)
        · exact (faithful_iff_of_del_fails hload hok).mpr (hblank hsome)
        · obtain ⟨j, hj, hfails'⟩ := hnull i key hi
          exact absurd hfails' (hfails j hj)

/-- A row of the tables of the conditions. -/
def condRow (uniq_tag control_identity estimated_value : Str) : Row :=
  ((OrdMap.empty.insertNew uniqTagColumn uniq_tag).insertNew controlIdentityColumn
    control_identity).insertNew estimatedValueColumn estimated_value

/-- One restrict condition `r`, one unrestrict condition `u`, and nothing else. -/
def twoTables : Remote where
  reply_1 := some [condRow (ascii ['r']) (ascii ['a']) (ascii ['1'])]
  reply_2 := some []
  reply_3 := some []
  reply_4 := some [condRow (ascii ['u']) (ascii ['b']) (ascii ['9'])]
  select := fun _ _ => some []
  sadd := fun _ _ _ _ => 1
  expire := fun _ _ => 1
  del := fun _ _ => 1

/-- The refresh succeeds with the restrict condition in the place of the unrestrict one. -/
theorem update_mixes_tables :
    (doUpdateConfigs twoTables ⟨.empty, .empty, .empty, .empty⟩).ending = .returns 0 ∧
      ¬ Faithful twoTables ⟨.empty, .empty, .empty, .empty⟩ := by
  have hend : (doUpdateConfigs twoTables ⟨.empty, .empty, .empty, .empty⟩).ending =
      .returns 0 := by decide +kernel
  refine ⟨hend, fun hfaithful => ?_⟩
  obtain ⟨r₁, r₂, r₃, r₄, -, -, -, h₄, -, -, -, hunrestrict⟩ := hfaithful.filled hend
  cases h₄
  have hfind := hunrestrict (ascii ['u'])
  revert hfind
  decide +kernel

end TouchServer
end MySrc
