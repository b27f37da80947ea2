import AuriOS.Foundation.RecentRing
import AuriOS.Lib.Strings

/-!
# The command history

The ring of `history.c`: sixteen entries of 256 bytes, the navigation cursor and the draft of the
line being edited.  Over it stands the history as its user thinks of it, `Recall`: the list of the
last sixteen commands, newest first, a draft, and a cursor that is `0` on the draft.

* `Represents h m`: the ring `h` holds what the ideal history `m` says;
* `historyPush_represents`, `historyPrev_represents`, `historyNext_represents`: each call of
  `history.c` does on the ring what its counterpart does on the ideal history;
* `historyRun_refines`: so does every sequence of calls from the zero-initialized ring.
-/

namespace AuriOS

open Program RecentRing

/-! ### The ring of `history.c` -/

/-- `HISTORY_CAPACITY` and `HISTORY_ENTRY_SIZE`. -/
def historyCapacity : ℕ := 16
def historyEntrySize : ℕ := 256

/-- `history_t`. -/
structure History where
  entries : List (List Byte)
  /-- The slot written next. -/
  head : ℤ
  count : ℤ
  /-- The navigation position: `0` is the line being edited. -/
  cursor : ℤ
  draft : List Byte
  deriving DecidableEq

/-- `static history_t h`. -/
def History.zero : History where
  entries := List.replicate historyCapacity (List.replicate historyEntrySize 0)
  head := 0
  count := 0
  cursor := 0
  draft := List.replicate historyEntrySize 0

/-- `h.entries[i]`. -/
def History.entry (h : History) (i : ℤ) : Except Fault (List Byte) :=
  if 0 ≤ i ∧ i < h.entries.length then .ok (h.entries.getD i.toNat []) else .error .outOfBounds

/-- The remainder of C rounds towards zero. -/
def slot (h : History) (back : ℤ) : ℤ := (h.head - back + historyCapacity).tmod historyCapacity

/-- `history_init`. -/
def historyInit (h : History) : Except Fault History := do
  let draft ← setByte h.draft 0 0
  pure { h with head := 0, count := 0, cursor := 0, draft := draft }

/-- The argument is `NULL` or a string. -/
def historyPush (h : History) : Option (List Byte) → Except Fault History
  | none => pure h
  | some cmd => do
      let b ← getByte cmd 0
      if b = 0 then pure h
      else do
        let entry ← h.entry h.head
        let entry ← strlcpy entry cmd (historyEntrySize - 1)
        let draft ← setByte h.draft 0 0
        pure { entries := h.entries.set h.head.toNat entry
               head := (h.head + 1).tmod historyCapacity
               count := if h.count < historyCapacity then h.count + 1 else historyCapacity
               cursor := 0
               draft := draft }

/-- `history_getcurrentcommand`. -/
def historyGetcurrentcommand (h : History) : Except Fault (List Byte) :=
  if h.cursor = 0 then pure h.draft else h.entry (slot h h.cursor)

/-- `history_prev` sets the line it leaves aside. -/
def historySaveDraft (h : History) : Option (List Byte) → Except Fault (List Byte)
  | none => pure h.draft
  | some current =>
      if h.cursor = 0 then strlcpy h.draft current (historyEntrySize - 1) else pure h.draft

/-- With the string the call returns. -/
def historyPrev (h : History) (current : Option (List Byte)) :
    Except Fault (List Byte × History) := do
  let draft ← historySaveDraft h current
  let h := { h with draft := draft
                    cursor := if h.cursor < h.count then h.cursor + 1 else h.cursor }
  let command ← historyGetcurrentcommand h
  pure (command, h)

/-- `history_next`. -/
def historyNext (h : History) : Except Fault (List Byte × History) := do
  let h := { h with cursor := if h.cursor > 0 then h.cursor - 1 else h.cursor }
  let command ← historyGetcurrentcommand h
  pure (command, h)

/-! ### The history as its user thinks of it -/

/-- The longest command the history keeps. -/
def recallLength : ℕ := 254

/-- The last commands, newest first, the draft of the line being edited, and the place the user
navigated to. -/
structure Recall where
  commands : List (List Byte)
  draft : List Byte
  cursor : ℕ
  commands_le : commands.length ≤ historyCapacity
  cursor_le : cursor ≤ commands.length

namespace Recall

/-- A history is determined by its commands, its draft and its cursor. -/
@[ext] theorem ext {m m' : Recall} (hcommands : m.commands = m'.commands)
    (hdraft : m.draft = m'.draft) (hcursor : m.cursor = m'.cursor) : m = m' := by
  obtain ⟨_, _, _, _, _⟩ := m
  obtain ⟨_, _, _, _, _⟩ := m'
  cases hcommands
  cases hdraft
  cases hcursor
  rfl

/-- Nothing was entered yet. -/
def empty : Recall where
  commands := []
  draft := []
  cursor := 0
  commands_le := Nat.zero_le _
  cursor_le := Nat.le_refl _

/-- A command goes to the front and ends the navigation. -/
def push (m : Recall) (command : List Byte) : Recall where
  commands := (command.take recallLength :: m.commands).take historyCapacity
  draft := []
  cursor := 0
  commands_le := List.length_take_le _ _
  cursor_le := Nat.zero_le _

/-- The first step back sets the line being edited aside. -/
def prev (m : Recall) (line : Option (List Byte)) : Recall where
  commands := m.commands
  draft := match line with
    | some line => if m.cursor = 0 then line.take recallLength else m.draft
    | none => m.draft
  cursor := min (m.cursor + 1) m.commands.length
  commands_le := m.commands_le
  cursor_le := Nat.min_le_right _ _

/-- One step towards the draft. -/
def next (m : Recall) : Recall where
  commands := m.commands
  draft := m.draft
  cursor := m.cursor - 1
  commands_le := m.commands_le
  cursor_le := (Nat.sub_le _ _).trans m.cursor_le

/-- The line the cursor stands on. -/
def current (m : Recall) : List Byte :=
  if m.cursor = 0 then m.draft else m.commands.getD (m.cursor - 1) []

end Recall

/-! ### The ring holds the ideal history -/

/-- What the ideal history says is what the ring holds. -/
structure Represents (h : History) (m : Recall) : Prop where
  /-- There are sixteen entries, -/
  capacity : h.entries.length = historyCapacity
  /-- each of 256 bytes, with a NUL among them. -/
  terminated : ∀ entry ∈ h.entries, ∃ text, HoldsString historyEntrySize entry text
  /-- The slots behind the head hold the commands. -/
  ring : ∃ head : ℕ, h.head = head ∧ Holds
    (fun entry text => ∃ array, entry = some array ∧ HoldsString historyEntrySize array text)
    historyCapacity (fun i => h.entries[i]?) head m.commands
  count_eq : h.count = m.commands.length
  cursor_eq : h.cursor = m.cursor
  draft : HoldsString historyEntrySize h.draft m.draft

section Refinement

variable {h : History} {m : Recall} {text str : List Byte}

/-- A zeroed array holds the empty string. -/
theorem holdsString_zero {size : ℕ} (hsize : 0 < size) :
    HoldsString size (List.replicate size 0) [] := by
  obtain ⟨n, rfl⟩ := Nat.exists_eq_add_of_lt hsize
  exact ⟨List.length_replicate, List.not_mem_nil, List.replicate (0 + n) 0, List.replicate_succ⟩

/-- A copy into an entry is cut to 254 characters. -/
theorem HoldsString.strlcpy_ok {array old : List Byte}
    (harray : HoldsString historyEntrySize array old) (hstr : IsString str text) :
    ∃ array', strlcpy array str (historyEntrySize - 1) = .ok array' ∧
      HoldsString historyEntrySize array' (text.take recallLength) :=
  strlcpy_holdsString hstr harray (by decide) (by decide)

/-- A NUL in front empties an array. -/
theorem setByte_zero_holdsString {size : ℕ} {array : List Byte} (hsize : 0 < size)
    (hlen : array.length = size) :
    ∃ array', setByte array 0 0 = .ok array' ∧ HoldsString size array' [] := by
  have hpos : 0 < array.length := hlen ▸ hsize
  refine ⟨array.set 0 0, setByte_ok (n := 0) hpos 0, by rw [List.length_set, hlen],
    List.not_mem_nil, array.tail, ?_⟩
  obtain ⟨a, array, rfl⟩ := List.exists_cons_of_length_pos hpos
  rfl

/-- `draft[0] = '\0'` empties the draft. -/
theorem HoldsString.clear {size : ℕ} {array old : List Byte} (harray : HoldsString size array old) :
    ∃ array', setByte array 0 0 = .ok array' ∧ HoldsString size array' [] := by
  obtain ⟨hlen, hstring⟩ := harray
  exact setByte_zero_holdsString (hlen ▸ Nat.zero_lt_of_lt hstring.length_lt) hlen

/-- The zeroed history stands for the empty one. -/
theorem represents_zero : Represents History.zero Recall.empty where
  capacity := List.length_replicate
  terminated entry hentry := by
    rw [List.eq_of_mem_replicate hentry]
    exact ⟨[], holdsString_zero (by decide)⟩
  ring := ⟨0, rfl, Holds.empty (by decide)⟩
  count_eq := rfl
  cursor_eq := rfl
  draft := holdsString_zero (by decide)

/-- After `history_init` the history is empty. -/
theorem historyInit_represents (hr : Represents h m) :
    ∃ h', historyInit h = .ok h' ∧ Represents h' Recall.empty := by
  obtain ⟨draft, hclear, hdraft⟩ := hr.draft.clear
  exact ⟨{ h with head := 0, count := 0, cursor := 0, draft := draft },
    by rw [historyInit, hclear]; rfl, hr.capacity, hr.terminated,
    ⟨0, rfl, Holds.empty (by decide)⟩, rfl, rfl, hdraft⟩

namespace Represents

/-- A slot index never leaves the ring. -/
theorem slot_mem (hr : Represents h m) {back : ℕ} (hle : back ≤ historyCapacity) :
    0 ≤ slot h back ∧ slot h back < historyCapacity := by
  obtain ⟨head, hhead, hring⟩ := hr.ring
  have hpos : 0 ≤ h.head - back + historyCapacity := by omega
  refine ⟨Int.tmod_nonneg _ hpos, Int.tmod_lt_of_pos _ (by decide)⟩

/-- The slot `history.c` computes is the one behind the head. -/
theorem slot_eq (hr : Represents h m) {back head : ℕ} (hback : 1 ≤ back)
    (hle : back ≤ historyCapacity) (hhead : h.head = head) :
    slot h back = behind historyCapacity head back := by
  obtain ⟨head', hhead', hring⟩ := hr.ring
  obtain rfl : head = head' := by omega
  unfold slot
  rw [← mod_eq_behind hring.head_lt hback hle, hhead,
    show (head : ℤ) - back + historyCapacity = ((head + historyCapacity - back : ℕ) : ℤ) by omega,
    Int.tmod_eq_emod_of_nonneg (Int.natCast_nonneg _)]
  norm_cast

/-- `history_getcurrentcommand` returns the line the cursor stands on. -/
theorem current (hr : Represents h m) :
    ∃ array, historyGetcurrentcommand h = .ok array ∧
      HoldsString historyEntrySize array m.current := by
  unfold historyGetcurrentcommand Recall.current
  by_cases hc : m.cursor = 0
  · rw [if_pos (by rw [hr.cursor_eq, hc]; rfl), if_pos hc]
    exact ⟨h.draft, rfl, hr.draft⟩
  · rw [if_neg (by rw [hr.cursor_eq]; exact_mod_cast hc), if_neg hc]
    have hpos : 1 ≤ m.cursor := Nat.one_le_iff_ne_zero.mpr hc
    have hle : m.cursor ≤ historyCapacity := m.cursor_le.trans m.commands_le
    obtain ⟨head, hhead, hring⟩ := hr.ring
    have hlt : m.cursor - 1 < m.commands.length := by have := m.cursor_le; omega
    obtain ⟨array, harray, hholds⟩ :=
      hring.read hpos (List.getElem?_eq_getElem hlt)
    obtain ⟨hi, -⟩ := List.getElem?_eq_some_iff.mp harray
    refine ⟨array, ?_, by rwa [List.getD_eq_getElem _ _ hlt]⟩
    unfold History.entry
    rw [hr.cursor_eq, hr.slot_eq hpos hle hhead, Int.toNat_natCast,
      if_pos ⟨Int.natCast_nonneg _, by exact_mod_cast hi⟩, List.getD_eq_getElem?_getD, harray]
    rfl

end Represents

/-- A push of a non-empty string. -/
theorem historyPush_represents (hr : Represents h m) (hstr : IsString str text)
    (hne : text ≠ []) :
    ∃ h', historyPush h (some str) = .ok h' ∧ Represents h' (m.push text) := by
  obtain ⟨head, hhead, hring⟩ := hr.ring
  have hlt : head < h.entries.length := hring.head_lt.trans_eq hr.capacity.symm
  obtain ⟨old, hold⟩ := hr.terminated h.entries[head] (List.getElem_mem hlt)
  obtain ⟨array, hcopy, harray⟩ := hold.strlcpy_ok hstr
  obtain ⟨draft, hclear, hdraft⟩ := hr.draft.clear
  obtain ⟨b, text, rfl⟩ := List.exists_cons_of_ne_nil hne
  have hread : getByte str 0 = .ok b := by
    obtain ⟨-, rest, rfl⟩ := hstr
    exact getByte_append [] _ b
  have hb : b ≠ 0 := (List.ne_of_not_mem_cons hstr.1).symm
  have hentry : h.entry h.head = .ok h.entries[head] := by
    unfold History.entry
    rw [hhead, if_pos ⟨Int.natCast_nonneg _, by exact_mod_cast hlt⟩, Int.toNat_natCast,
      List.getD_eq_getElem _ _ hlt]
  refine ⟨_, by rw [historyPush, hread, ok_bind, if_neg hb, hentry, ok_bind, hcopy, ok_bind,
    hclear, ok_bind]; rfl, ?_⟩
  rw [hhead, Int.toNat_natCast]
  constructor
  case capacity => rw [List.length_set, hr.capacity]
  case terminated =>
    intro entry hmem
    rcases List.mem_or_eq_of_mem_set hmem with hmem | rfl
    · exact hr.terminated entry hmem
    · exact ⟨_, harray⟩
  case ring =>
    refine ⟨RecentRing.next historyCapacity head, ?_, ?_⟩
    · rw [← mod_eq_next hring.head_lt, Int.tmod_eq_emod_of_nonneg (by omega)]
      norm_cast
    · exact hring.push ⟨array, rfl, harray⟩ (List.getElem?_set_self hlt)
        fun hne => List.getElem?_set_ne hne.symm
  case count_eq =>
    have hle := m.commands_le
    change (if h.count < historyCapacity then h.count + 1 else historyCapacity : ℤ) =
      (((b :: text).take recallLength :: m.commands).take historyCapacity).length
    rw [hr.count_eq, List.length_take, List.length_cons]
    split <;> omega
  case cursor_eq => rfl
  case draft => exact hdraft

/-- A push of `NULL` or of the empty string does nothing. -/
theorem historyPush_nothing (hstr : IsString str []) : historyPush h (some str) = .ok h := by
  obtain ⟨-, rest, rfl⟩ := hstr
  have hread : getByte ([] ++ 0 :: rest) 0 = .ok 0 := getByte_append [] rest 0
  rw [historyPush, hread, ok_bind, if_pos rfl]
  rfl

/-- The line `history_prev` is called with, if any, and what is kept of it. -/
theorem historyPrev_represents (hr : Represents h m) {current : Option (List Byte)}
    {line : Option (List Byte)} (hline : Option.Rel IsString current line) :
    ∃ array h', historyPrev h current = .ok (array, h') ∧ Represents h' (m.prev line) ∧
      HoldsString historyEntrySize array (m.prev line).current := by
  have hdraft : ∃ draft, historySaveDraft h current = .ok draft ∧
      HoldsString historyEntrySize draft (m.prev line).draft := by
    have hzero : h.cursor = 0 ↔ m.cursor = 0 := by rw [hr.cursor_eq]; norm_cast
    cases hline with
    | none => exact ⟨h.draft, rfl, hr.draft⟩
    | some hstr =>
      simp only [historySaveDraft, Recall.prev, hzero]
      split
      · exact hr.draft.strlcpy_ok hstr
      · exact ⟨h.draft, rfl, hr.draft⟩
  obtain ⟨draft, hcopy, hholds⟩ := hdraft
  have hr' : Represents { h with
      draft := draft
      cursor := if h.cursor < h.count then h.cursor + 1 else h.cursor } (m.prev line) := by
    refine ⟨hr.capacity, hr.terminated, hr.ring, hr.count_eq, ?_, hholds⟩
    have hle := m.cursor_le
    change (if h.cursor < h.count then h.cursor + 1 else h.cursor) =
      ((min (m.cursor + 1) m.commands.length : ℕ) : ℤ)
    rw [hr.cursor_eq, hr.count_eq]
    split <;> omega
  obtain ⟨array, hcurrent, harray⟩ := hr'.current
  refine ⟨array, _, ?_, hr', harray⟩
  unfold historyPrev
  rw [hcopy, ok_bind]
  dsimp only
  rw [hcurrent]
  rfl

/-- `history_next` steps towards the draft and copies out the entry it comes to. -/
theorem historyNext_represents (hr : Represents h m) :
    ∃ array h', historyNext h = .ok (array, h') ∧ Represents h' m.next ∧
      HoldsString historyEntrySize array m.next.current := by
  have hr' : Represents
      { h with cursor := if h.cursor > 0 then h.cursor - 1 else h.cursor } m.next := by
    refine ⟨hr.capacity, hr.terminated, hr.ring, hr.count_eq, ?_, hr.draft⟩
    change (if h.cursor > 0 then h.cursor - 1 else h.cursor) = ((m.cursor - 1 : ℕ) : ℤ)
    rw [hr.cursor_eq]
    split <;> omega
  obtain ⟨array, hcurrent, harray⟩ := hr'.current
  refine ⟨array, _, ?_, hr', harray⟩
  unfold historyNext
  dsimp only
  rw [hcurrent]
  rfl

end Refinement

/-! ### Runs -/

/-- An array with a NUL in it: what a caller may pass as a string. -/
structure CString where
  bytes : List Byte
  terminated : 0 ∈ bytes

/-- The characters before the NUL. -/
def CString.text (s : CString) : List Byte := s.bytes.takeWhile (· ≠ 0)

/-- A C string holds its text. -/
theorem CString.isString (s : CString) : IsString s.bytes s.text := by
  obtain ⟨text, hstr⟩ := exists_isString s.terminated
  have htext : s.text = text := by
    obtain ⟨h0, rest, he⟩ := hstr
    unfold CString.text
    rw [he, List.takeWhile_append_of_pos fun a ha => by
      simpa using ne_of_mem_of_not_mem ha h0]
    simp
  rwa [htext]

/-- A call of `history.c`; `none` is `NULL`. -/
inductive HistoryCall
  | push (cmd : Option CString)
  | prev (current : Option CString)
  | next

/-- The call on the ring. -/
def HistoryCall.perform (h : History) : HistoryCall → Except Fault History
  | .push cmd => historyPush h (cmd.map CString.bytes)
  | .prev current => Prod.snd <$> historyPrev h (current.map CString.bytes)
  | .next => Prod.snd <$> historyNext h

/-- The call on the ideal history: only a non-empty string is a command. -/
def HistoryCall.ideal (m : Recall) : HistoryCall → Recall
  | .push (some cmd) => if cmd.text = [] then m else m.push cmd.text
  | .push none => m
  | .prev current => m.prev (current.map CString.text)
  | .next => m.next

/-- The command a call pushes. -/
def HistoryCall.command : HistoryCall → Option (List Byte)
  | .push (some cmd) => if cmd.text = [] then none else some cmd.text
  | _ => none

/-- The calls are performed one after the other. -/
def historyRun (h : History) (calls : List HistoryCall) : Except Fault History :=
  calls.foldlM HistoryCall.perform h

/-- The calls are performed on the ideal history. -/
def Recall.run (m : Recall) (calls : List HistoryCall) : Recall := calls.foldl HistoryCall.ideal m

section Runs

variable {h : History} {m : Recall}

/-- Every call acts as on the ideal history. -/
theorem perform_represents (hr : Represents h m) (call : HistoryCall) :
    ∃ h', call.perform h = .ok h' ∧ Represents h' (call.ideal m) := by
  cases call with
  | push cmd =>
    cases cmd with
    | none => exact ⟨h, rfl, hr⟩
    | some cmd =>
      change ∃ h', historyPush h (some cmd.bytes) = .ok h' ∧
        Represents h' (if cmd.text = [] then m else m.push cmd.text)
      split
      · next hempty =>
        exact ⟨h, historyPush_nothing (hempty ▸ cmd.isString), hr⟩
      · next hne => exact historyPush_represents hr cmd.isString hne
  | prev current =>
    have hline : Option.Rel IsString (current.map CString.bytes) (current.map CString.text) := by
      cases current with
      | none => exact Option.Rel.none
      | some s => exact Option.Rel.some s.isString
    obtain ⟨array, h', hrun, hr', -⟩ := historyPrev_represents hr hline
    exact ⟨h', by rw [HistoryCall.perform, hrun]; rfl, hr'⟩
  | next =>
    obtain ⟨array, h', hrun, hr', -⟩ := historyNext_represents hr
    exact ⟨h', by rw [HistoryCall.perform, hrun]; rfl, hr'⟩

/-- Every run of calls acts as on the ideal history. -/
theorem historyRun_represents (hr : Represents h m) (calls : List HistoryCall) :
    ∃ h', historyRun h calls = .ok h' ∧ Represents h' (m.run calls) :=
  foldlM_simulates HistoryCall.ideal Represents
    (fun _ _ call hr => perform_represents hr call) calls hr

/-- A call puts the command it pushes, if any, in front. -/
theorem ideal_commands (m : Recall) (call : HistoryCall) :
    (call.ideal m).commands =
      (call.command.toList.map (List.take recallLength) ++ m.commands).take historyCapacity := by
  have hkeep : m.commands = ([] ++ m.commands).take historyCapacity :=
    (List.take_of_length_le m.commands_le).symm
  cases call with
  | push cmd =>
    cases cmd with
    | none => exact hkeep
    | some cmd =>
      change (if cmd.text = [] then m else m.push cmd.text).commands =
        ((if cmd.text = [] then none else some cmd.text).toList.map (List.take recallLength) ++
          m.commands).take historyCapacity
      split
      · exact hkeep
      · rfl
  | prev current => exact hkeep
  | next => exact hkeep

/-- The ideal history keeps the last commands pushed, cut to 254 characters. -/
theorem run_commands (m : Recall) (calls : List HistoryCall) :
    (m.run calls).commands =
      (((calls.filterMap HistoryCall.command).reverse.map (List.take recallLength)) ++
        m.commands).take historyCapacity := by
  induction calls generalizing m with
  | nil => exact (List.take_of_length_le m.commands_le).symm
  | cons call calls ih =>
    have hcommands : (call :: calls).filterMap HistoryCall.command =
        call.command.toList ++ calls.filterMap HistoryCall.command := by
      cases hc : call.command with
      | none => rw [List.filterMap_cons_none hc]; rfl
      | some command => rw [List.filterMap_cons_some hc]; rfl
    have hrev : call.command.toList.reverse = call.command.toList := by
      cases call.command <;> rfl
    refine (ih (call.ideal m)).trans ?_
    rw [ideal_commands, hcommands, List.reverse_append, hrev, List.map_append, List.append_assoc,
      List.take_append, @List.take_append _ _ (_ ++ _), List.take_take, Nat.min_eq_left
        (Nat.sub_le _ _)]

/-- Every sequence of calls from the zero-initialized ring refines the ideal history: the last
sixteen non-empty commands, newest first and cut to 254 characters, the draft, and the cursor.
`history_getcurrentcommand` returns the line the cursor stands on, no slot index leaves the ring
and every entry stays terminated. -/
theorem historyRun_refines (calls : List HistoryCall) :
    ∃ h, historyRun History.zero calls = .ok h ∧ Represents h (Recall.empty.run calls) ∧
      (Recall.empty.run calls).commands =
        (((calls.filterMap HistoryCall.command).reverse.map (List.take recallLength))).take
          historyCapacity ∧
      (∃ array, historyGetcurrentcommand h = .ok array ∧
        IsString array (Recall.empty.run calls).current) ∧
      (0 ≤ h.head ∧ h.head < historyCapacity) ∧
      (∀ back : ℕ, 1 ≤ back → back ≤ historyCapacity →
        0 ≤ slot h back ∧ slot h back < historyCapacity) ∧
      ∀ entry ∈ h.entries, entry.length = historyEntrySize ∧ 0 ∈ entry := by
  obtain ⟨h, hrun, hr⟩ := historyRun_represents represents_zero calls
  obtain ⟨array, hcurrent, -, hstring⟩ := hr.current
  refine ⟨h, hrun, hr, ?_, ⟨array, hcurrent, hstring⟩, ?_, fun back _ hle => hr.slot_mem hle, ?_⟩
  · rw [run_commands]
    exact congrArg (List.take historyCapacity) (List.append_nil _)
  · obtain ⟨head, hhead, hring⟩ := hr.ring
    rw [hhead]
    exact ⟨Int.natCast_nonneg head, by exact_mod_cast hring.head_lt⟩
  · intro entry hentry
    obtain ⟨text, hlen, h0, rest, rfl⟩ := hr.terminated entry hentry
    exact ⟨hlen, by simp⟩

end Runs

end AuriOS
