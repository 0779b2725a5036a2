import Wirth.Kernel.Fs.Path
import Wirth.Lib.Ring
import Wirth.Lib.Word

namespace Wirth.Kernel.Shell

open Wirth.Lib Wirth.Kernel.Fs

def kMaxLine : Nat := 192
def kHistoryCapacity : Nat := 16

-- The lines are without their terminators.
structure History where
  lines : Nat → Str
  count : Nat

namespace History

def size (h : History) : Nat := if h.count < kHistoryCapacity then h.count else kHistoryCapacity

def historyAt (h : History) (index : Nat) : Option Str :=
  if h.size ≤ index ∨ h.size = 0 then none
  else
    let start := if h.count < kHistoryCapacity then 0 else h.count % kHistoryCapacity
    some (h.lines ((start + index) % kHistoryCapacity))

def append (h : History) (line : Option Str) : History :=
  match line with
  | none => h
  | some line =>
      if line = [] then h
      else if 0 < h.count ∧ h.historyAt (h.size - 1) = some line then h
      else ⟨Function.update h.lines (h.count % kHistoryCapacity) (copyText line kMaxLine), uint32 (h.count + 1)⟩

end History

def History.ofLines (slots : Nat → Str) (lines : List Str) : History :=
  lines.foldl (fun h line => h.append (some line)) ⟨slots, 0⟩

-- Without empty lines and lines that repeat the one before.
def keep (kept : List Str) (line : Str) : List Str :=
  if line = [] ∨ kept.getLast? = some line then kept else kept ++ [line]

section Ring

variable {h : History} {kept : List Str}

structure History.Follows (h : History) (kept : List Str) : Prop where
  count : h.count = kept.length
  holds : Ring.Holds 16 h.lines (kept.length - 16) kept

theorem History.Follows.size_eq (hf : h.Follows kept) : h.size = min 16 kept.length := by
  rw [size, hf.count, kHistoryCapacity]
  split <;> omega

theorem History.Follows.historyAt_eq (hf : h.Follows kept) {i : Nat} (hi : i < h.size) :
    h.historyAt i = kept[kept.length - h.size + i]? := by
  have hsize := hf.size_eq
  have hlt : kept.length - h.size + i < kept.length := by omega
  rw [historyAt, if_neg (by omega), List.getElem?_eq_getElem hlt,
    ← hf.holds _ _ (by omega) (List.getElem?_eq_getElem hlt), hf.count, kHistoryCapacity]
  refine congrArg (fun slot => some (h.lines slot)) ?_
  split <;> omega

theorem History.Follows.append (hf : h.Follows kept) {line : Str} (hlength : line.length < kMaxLine)
    (hnumber : kept.length + 1 < 2 ^ 32) : (h.append (some line)).Follows (keep kept line) := by
  have hlast : (0 < h.count ∧ h.historyAt (h.size - 1) = some line) ↔ kept.getLast? = some line := by
    rw [List.getLast?_eq_getElem?]
    have hsize := hf.size_eq
    have hcount := hf.count
    by_cases hempty : kept.length = 0
    · simp [List.length_eq_zero_iff.mp hempty, hcount]
    · rw [hf.historyAt_eq (by omega), show kept.length - h.size + (h.size - 1) = kept.length - 1 by omega]
      exact and_iff_right (by omega)
  rw [History.append, keep]
  simp only [hlast]
  by_cases hempty : line = []
  · simpa [hempty] using hf
  by_cases hsame : kept.getLast? = some line
  · simpa [hsame] using hf
  · simp only [hempty, hsame, if_false, or_self]
    have hroom : kept.length < kept.length + 1 - 16 + 16 := by omega
    refine ⟨by rw [hf.count, uint32_eq_self hnumber, List.length_append, List.length_singleton], ?_⟩
    rw [List.length_append, List.length_singleton, hf.count, copyText, List.take_of_length_le (by omega)]
    exact (hf.holds.mono (by omega)).push hroom line

end Ring

theorem length_keep_le (kept : List Str) (line : Str) : (keep kept line).length ≤ kept.length + 1 := by
  rw [keep]
  split <;> simp

theorem follows_kept (slots : Nat → Str) {lines : List Str} (hnumber : lines.length < 2 ^ 32)
    (hlength : ∀ line ∈ lines, line.length < kMaxLine) :
    (History.ofLines slots lines).Follows (lines.foldl keep []) ∧
      (lines.foldl keep []).length ≤ lines.length := by
  induction lines using List.reverseRecOn with
  | nil => exact ⟨⟨rfl, fun i a _ h => by simp at h⟩, Nat.le_refl 0⟩
  | append_singleton lines line ih =>
    rw [List.length_append, List.length_singleton] at hnumber
    obtain ⟨hf, hle⟩ := ih (by omega) fun l hl => hlength l (List.mem_append_left _ hl)
    rw [History.ofLines, List.foldl_append, List.foldl_append, List.length_append, List.length_singleton]
    refine ⟨hf.append (hlength line (by simp)) (by omega), (length_keep_le _ line).trans (by omega)⟩

-- The ring shows the last sixteen lines that were kept, the oldest one first.
theorem history_refines (slots : Nat → Str) {lines : List Str} (hnumber : lines.length < 2 ^ 32)
    (hlength : ∀ line ∈ lines, line.length < kMaxLine) :
    let h := History.ofLines slots lines
    let kept := lines.foldl keep []
    (List.range h.size).map h.historyAt = (kept.drop (kept.length - min 16 kept.length)).map some := by
  intro h kept
  have hf : h.Follows kept := (follows_kept slots hnumber hlength).1
  have hsize := hf.size_eq
  refine List.ext_getElem (by simp; omega) fun i hi _ => ?_
  rw [List.length_map, List.length_range] at hi
  simp only [List.getElem_map, List.getElem_range, List.getElem_drop]
  rw [hf.historyAt_eq hi, hsize, List.getElem?_eq_getElem]

theorem history_refines_repeated :
    let h := History.ofLines (fun _ => []) [lit "ls", lit "ls", lit "", lit "ps"]
    (List.range h.size).map h.historyAt = [some (lit "ls"), some (lit "ps")] :=
  (history_refines (fun _ => []) (by decide) (by decide)).trans (by decide)

-- The line buffer is a sequence of bytes of which `pos` are the edited text.
structure Editor where
  line : Nat → UInt8
  pos : Nat
  view : Int
  draft : Str
  draftValid : Bool

namespace Editor

def text (e : Editor) : Str := (List.range e.pos).map e.line

-- What `copy_text` reads from the line, and the line after `copy_text` has written to it.
def readText (line : Nat → UInt8) : Str := ((List.range (kMaxLine - 1)).map line).takeWhile (· ≠ 0)

def writeText (line : Nat → UInt8) (src : Str) (i : Nat) : UInt8 :=
  (copyText src kMaxLine ++ [0])[i]?.getD (line i)

def textLen (line : Nat → UInt8) : Nat := (((List.range kMaxLine).map line).takeWhile (· ≠ 0)).length

def copyToLine (e : Editor) (src : Str) : Editor :=
  let line := writeText e.line src
  { e with line := line, pos := textLen line }

def moveUp (h : History) (e : Editor) : Editor :=
  if h.size = 0 then e
  else
    let e := if e.view < 0 then
        { e with draft := readText e.line, draftValid := true, view := h.size - 1 }
      else if 0 < e.view then { e with view := e.view - 1 } else e
    match h.historyAt e.view.toNat with
    | none => e
    | some entry => e.copyToLine entry

def moveDown (h : History) (e : Editor) : Editor :=
  if h.size = 0 ∨ e.view < 0 then e
  else if e.view + 1 < h.size then
    let e := { e with view := e.view + 1 }
    match h.historyAt e.view.toNat with
    | none => e
    | some entry => e.copyToLine entry
  else { e with view := -1 }.copyToLine (if e.draftValid then e.draft else [])

inductive Key where
  | typed (c : UInt8)
  | backspace

def press (e : Editor) : Key → Editor
  | .typed c =>
      if e.pos + 1 < kMaxLine then { e with line := Function.update e.line e.pos c, pos := e.pos + 1 } else e
  | .backspace => { e with pos := e.pos - 1 }

-- A new line, after `history_reset_view`; the buffer still has its old bytes.
def start (line : Nat → UInt8) : Editor := ⟨Function.update line 0 0, 0, -1, [], false⟩

section Navigation

variable {h : History} {e e₀ : Editor} {src : Str} {v : Nat}

theorem text_copyToLine (e : Editor) (hzero : 0 ∉ src) (hlength : src.length < kMaxLine) :
    (e.copyToLine src).text = src := by
  have hcopy : copyText src kMaxLine = src := List.take_of_length_le (by omega)
  have hsrc : (List.range src.length).map (writeText e.line src) = src :=
    List.ext_getElem (by simp) fun i _ hi => by simp [writeText, hcopy, List.getElem?_append_left hi, hi]
  have hend : writeText e.line src src.length = 0 := by simp [writeText, hcopy]
  obtain ⟨m, hm⟩ : ∃ m, kMaxLine = src.length + (m + 1) := ⟨kMaxLine - src.length - 1, by omega⟩
  have hlen : textLen (writeText e.line src) = src.length := by
    rw [textLen, hm, List.range_add, List.map_append, hsrc, List.takeWhile_append_of_pos, List.range_succ_eq_map]
    · simp [hend]
    · intro c hc
      simpa using ne_of_mem_of_not_mem hc hzero
  rw [text, copyToLine, hlen, hsrc]

-- The lines of a history are C strings that fit.
def Clean (h : History) : Prop := ∀ i entry, h.historyAt i = some entry → 0 ∉ entry ∧ entry.length < kMaxLine

-- The editor shows the entry `v`, and the draft is the line as it was.
structure Shows (h : History) (line : Nat → UInt8) (v : Nat) (e : Editor) : Prop where
  view : e.view = v
  draft : e.draft = readText line
  valid : e.draftValid = true
  text : h.historyAt v = some e.text

variable {line : Nat → UInt8}

theorem exists_historyAt (hv : v < h.size) : ∃ entry, h.historyAt v = some entry :=
  ⟨_, if_neg (by omega)⟩

theorem shows_copyToLine (hclean : Clean h) (hv : v < h.size) (hview : e.view = v)
    (hdraft : e.draft = readText line) (hvalid : e.draftValid = true) :
    Shows h line v (match h.historyAt e.view.toNat with
      | none => e
      | some entry => e.copyToLine entry) := by
  obtain ⟨entry, hentry⟩ := exists_historyAt hv
  rw [hview, Int.toNat_natCast, hentry]
  exact ⟨hview, hdraft, hvalid, by rw [text_copyToLine e (hclean v entry hentry).1 (hclean v entry hentry).2, hentry]⟩

theorem shows_moveUp_first (hclean : Clean h) (hsize : 1 ≤ h.size) (hview : e.view < 0) :
    Shows h e.line (h.size - 1) (moveUp h e) := by
  rw [moveUp, if_neg (by omega), if_pos hview]
  exact shows_copyToLine hclean (by omega) (by simp; omega) rfl rfl

theorem Shows.moveUp (hclean : Clean h) (hv : v + 1 < h.size) (he : Shows h line (v + 1) e) :
    Shows h line v (moveUp h e) := by
  have hview := he.view
  rw [Editor.moveUp, if_neg (by omega), if_neg (by omega), if_pos (by omega)]
  exact shows_copyToLine hclean (by omega) (by simp; omega) he.draft he.valid

theorem Shows.moveDown (hclean : Clean h) (hv : v + 1 < h.size) (he : Shows h line v e) :
    Shows h line (v + 1) (moveDown h e) := by
  have hview := he.view
  rw [Editor.moveDown, if_neg (by omega), if_pos (by omega)]
  exact shows_copyToLine hclean hv (by simp; omega) he.draft he.valid

theorem zero_notMem_readText : 0 ∉ readText line := fun h => by simpa using List.mem_takeWhile_imp h

theorem Shows.moveDown_last (hv : v + 1 = h.size) (he : Shows h line v e) :
    (Editor.moveDown h e).text = readText line := by
  have hview := he.view
  have hlength : (readText line).length < kMaxLine :=
    Nat.lt_of_le_of_lt (List.takeWhile_sublist _).length_le (by simp [kMaxLine])
  rw [Editor.moveDown, if_neg (by omega), if_neg (by omega), he.valid, if_pos rfl, he.draft]
  exact text_copyToLine _ zero_notMem_readText hlength

theorem shows_ups (hclean : Clean h) (hview : e.view < 0) {j : Nat} (hj : j + 1 ≤ h.size) :
    Shows h e.line (h.size - (j + 1)) ((moveUp h)^[j + 1] e) := by
  induction j with
  | zero => exact shows_moveUp_first hclean hj hview
  | succ j ih =>
    rw [Function.iterate_succ_apply']
    have hprev := ih (by omega)
    rw [show h.size - (j + 1) = h.size - (j + 1 + 1) + 1 by omega] at hprev
    exact hprev.moveUp hclean (by omega)

theorem shows_downs (hclean : Clean h) (he : Shows h line v e) {j : Nat} (hj : v + j < h.size) :
    Shows h line (v + j) ((moveDown h)^[j] e) := by
  induction j with
  | zero => exact he
  | succ j ih =>
    rw [Function.iterate_succ_apply']
    exact (ih (by omega)).moveDown hclean (by omega)

theorem readText_eq_text_iff (hpos : e.pos < kMaxLine) :
    readText e.line = e.text ↔ 0 ∉ e.text ∧ (e.pos = kMaxLine - 1 ∨ e.line e.pos = 0) := by
  by_cases hzero : 0 ∈ e.text
  · exact iff_of_false (fun h => zero_notMem_readText (h ▸ hzero)) fun h => h.1 hzero
  obtain ⟨m, hm⟩ : ∃ m, kMaxLine - 1 = e.pos + m := ⟨kMaxLine - 1 - e.pos, by omega⟩
  have hall : ∀ c ∈ e.text, decide (c ≠ 0) = true := fun c hc => by
    simpa using ne_of_mem_of_not_mem hc hzero
  rw [readText, hm, List.range_add, List.map_append, ← text, List.takeWhile_append_of_pos hall,
    List.append_right_eq_self, and_iff_right hzero]
  cases m with
  | zero => simp
  | succ m => simp [List.range_succ_eq_map]

end Navigation

theorem press_view (e : Editor) (key : Key) : (e.press key).view = e.view ∧
    (e.pos < kMaxLine → (e.press key).pos < kMaxLine) := by
  cases key with
  | typed c =>
    rw [press]
    split <;> simp_all
  | backspace => exact ⟨rfl, fun h => Nat.lt_of_le_of_lt (Nat.sub_le _ _) h⟩

-- After `j` times Up the line is the entry that was added `j` lines ago. As many times Down bring back
-- what stands in the buffer up to the first zero: that is the text if there is a zero right behind it.
theorem navigation_restores_iff {h : History} (hclean : Clean h) (line : Nat → UInt8) (keys : List Key)
    {k : Nat} (hk : 1 ≤ k) (hsize : k ≤ h.size) :
    let e := keys.foldl press (start line)
    (∀ j, 1 ≤ j → j ≤ k → h.historyAt (h.size - j) = some ((moveUp h)^[j] e).text) ∧
      (((moveDown h)^[k] ((moveUp h)^[k] e)).text = e.text ↔
        0 ∉ e.text ∧ (e.pos = kMaxLine - 1 ∨ e.line e.pos = 0)) := by
  intro e
  have he : e.view = -1 ∧ e.pos < kMaxLine := by
    have hstart : (start line).view = -1 ∧ (start line).pos < kMaxLine := ⟨rfl, Nat.succ_pos 191⟩
    exact List.foldlRecOn (motive := fun e => e.view = -1 ∧ e.pos < kMaxLine) keys press hstart
      fun e he key _ => ⟨(press_view e key).1.trans he.1, (press_view e key).2 he.2⟩
  have hview : e.view < 0 := by omega
  obtain ⟨k, rfl⟩ : ∃ n, k = n + 1 := ⟨k - 1, by omega⟩
  refine ⟨fun j hj hle => ?_, ?_⟩
  · obtain ⟨j, rfl⟩ : ∃ n, j = n + 1 := ⟨j - 1, by omega⟩
    exact (shows_ups hclean hview (by omega)).text
  · have hdowns := shows_downs hclean (shows_ups hclean hview hsize) (by omega : h.size - (k + 1) + k < h.size)
    rw [Function.iterate_succ_apply', hdowns.moveDown_last (by omega)]
    exact readText_eq_text_iff he.2

def oneLine : History := ⟨fun _ => lit "ps", 1⟩

theorem navigation_restores_typed :
    let e := [Key.typed 108, .typed 115].foldl press (start fun _ => 0)
    ((moveDown oneLine)^[1] ((moveUp oneLine)^[1] e)).text = lit "ls" :=
  (navigation_restores_iff (fun i entry hi => by
    have he : entry = lit "ps" := by
      unfold History.historyAt at hi
      split at hi
      · cases hi
      · exact (Option.some.inj hi).symm
    rw [he]
    decide) (fun _ => 0) [.typed 108, .typed 115] (Nat.le_refl 1) (by decide)).2.mpr (by decide)

-- The character that was deleted comes back.
theorem deleted_character_returns :
    let e := [Key.typed 108, .typed 115, .backspace].foldl press (start fun _ => 0)
    e.text = lit "l" ∧ (moveDown oneLine (moveUp oneLine e)).text = lit "ls" := by
  decide +kernel

end Editor

end Wirth.Kernel.Shell
