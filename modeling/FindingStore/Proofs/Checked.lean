import FindingStore.LineBuffer
import FindingStore.Proofs.Ledger.Invariant

namespace FindingStore

namespace Checked

variable {α : Type}

def wordBits : Nat := 64

def maxSigned : Nat := 0x7FFFFFFFFFFFFFFF

def minus? (a b : Nat) : Option Nat := if b ≤ a then some (a - b) else none

def plus? (a b : Nat) : Option Nat := if a + b < Retry.wordSize then some (a + b) else none

def negate? (n : Int) : Option Int := if n ≤ maxSigned then some (-n) else none

def shift? (a n : Nat) : Option Nat := if n < wordBits then some (a <<< n) else none

def slice? (xs : List α) (start stop : Nat) : Option (List α) :=
  if start ≤ stop ∧ stop ≤ xs.length then some ((xs.take stop).drop start) else none

def splice? (xs : List α) (start stop : Nat) (new : List α) : Option (List α) :=
  if start ≤ stop ∧ stop ≤ xs.length then some (xs.take start ++ new ++ xs.drop stop) else none

def modify? (xs : List α) (n : Nat) (change : α → α) : Option (List α) :=
  if n < xs.length then some (xs.modify n change) else none

theorem minus?_of_le {a b : Nat} (h : b ≤ a) : minus? a b = some (a - b) := if_pos h

theorem plus?_of_le {a b : Nat} (ha : a ≤ maxSigned) (hb : b ≤ maxSigned) :
    plus? a b = some (a + b) := by
  refine if_pos (Nat.lt_of_le_of_lt (Nat.add_le_add ha hb) ?_)
  decide

theorem slice?_of_le {xs : List α} {start stop : Nat} (hstart : start ≤ stop)
    (hstop : stop ≤ xs.length) : slice? xs start stop = some ((xs.take stop).drop start) :=
  if_pos ⟨hstart, hstop⟩

theorem slice?_eq_some_iff {xs part : List α} {start stop : Nat} :
    slice? xs start stop = some part ↔
      start ≤ stop ∧ stop ≤ xs.length ∧ (xs.take stop).drop start = part := by
  unfold slice?
  split
  · next h => simp [h]
  · next h => exact iff_of_false nofun fun ⟨hstart, hstop, _⟩ ↦ h ⟨hstart, hstop⟩

theorem slice?_eq_some_iff_stands {xs part : List α} {start : Nat} (h : start ≤ xs.length) :
    slice? xs start (start + part.length) = some part ↔ part <+: xs.drop start := by
  rw [slice?_eq_some_iff, List.drop_take, Nat.add_sub_cancel_left, List.prefix_iff_eq_take,
    eq_comm (a := part)]
  refine ⟨fun h ↦ h.2.2, fun htake ↦ ⟨Nat.le_add_right .., ?_, htake⟩⟩
  have hlength := congrArg List.length htake
  rw [List.length_take, List.length_drop] at hlength
  omega

end Checked

open Checked

def carets? (text : Bytes) (column width : Nat) : Option String :=
  if column = 0 then some ""
  else do
    let before ← minus? column 1
    let shown ← slice? text 0 (min before text.length)
    some (String.ofList ((Utf8.shownChars shown).map markerBlank ++
      List.replicate (before - text.length) ' ' ++ List.replicate width '^'))

theorem carets?_eq (text : Bytes) (column width : Nat) :
    carets? text column width = some (carets text column width) := by
  cases column with
  | zero => rfl
  | succ before =>
    have hshown : slice? text 0 (min before text.length) = some (text.take before) := by
      rw [slice?_of_le (Nat.zero_le _) (Nat.min_le_right ..), List.drop_zero,
        ← List.take_eq_take_min]
    simp [carets?, carets, minus?_of_le, hshown]

def Timestamp.wholeSeconds? (t : Timestamp) : Option Int :=
  let nanoseconds := t.seconds * 1000000000 + t.nanoseconds
  if 0 ≤ nanoseconds then some (nanoseconds / 1000000000)
  else negate? (-nanoseconds / 1000000000)

/-- Only the seconds of a time that lies as far back as a word can say have no negative. -/
theorem Timestamp.wholeSeconds?_eq {t : Timestamp} (h : -(maxSigned : Int) ≤ t.seconds) :
    t.wholeSeconds? = some t.wholeSeconds := by
  unfold wholeSeconds? wholeSeconds
  dsimp only
  split
  · next hpos => rw [Int.tdiv_eq_ediv_of_nonneg hpos]
  · next hneg =>
    have hmax : (maxSigned : Int) = 0x7FFFFFFFFFFFFFFF := rfl
    have hfits : -(t.seconds * 1000000000 + t.nanoseconds) / 1000000000 ≤ (maxSigned : Int) := by
      omega
    rw [negate?, if_pos hfits, ← Int.tdiv_eq_ediv_of_nonneg (by omega), Int.neg_tdiv, Int.neg_neg]

namespace LineBuffer

def patch? (b : LineBuffer) (line column : Nat) (old new : String) :
    Option (Except PatchError LineBuffer) :=
  match b.line? line with
  | none => some (.error (.lineOutOfRange line b.count))
  | some text =>
    if column = 0 ∨ text.length < column then
      some (.error (.columnOutOfRange line column text.length))
    else do
      let start ← minus? column 1
      let stop ← plus? start (Utf8.encode old).length
      if slice? text start stop = some (Utf8.encode old) then
        let patched ← splice? text start stop (Utf8.encode new)
        some (.ok ⟨b.lines.set (line - 1) patched⟩)
      else some (.error (.mismatch line column old))

theorem mem_of_line? {b : LineBuffer} {n : Nat} {text : Bytes} (h : b.line? n = some text) :
    text ∈ b.lines := by
  cases n with
  | zero => cases h
  | succ n => exact List.mem_of_getElem? h

theorem patch?_eq {b : LineBuffer} (hb : ∀ text ∈ b.lines, text.length ≤ maxSigned)
    {old : String} (hold : (Utf8.encode old).length ≤ maxSigned) (line column : Nat)
    (new : String) : b.patch? line column old new = some (b.patch line column old new) := by
  unfold patch? patch
  cases htext : b.line? line with
  | none => rfl
  | some text =>
    dsimp only
    split
    · rfl
    · next hcolumn =>
      have hstart : column - 1 ≤ text.length := by omega
      have hfits : column - 1 ≤ maxSigned := Nat.le_trans hstart (hb text (mem_of_line? htext))
      rw [minus?_of_le (by omega), Option.bind_eq_bind, Option.bind_some, plus?_of_le hfits hold,
        Option.bind_eq_bind, Option.bind_some]
      simp only [slice?_eq_some_iff_stands hstart, replaceSpan?, List.isPrefixOf_iff_prefix]
      by_cases hstands : Utf8.encode old <+: text.drop (column - 1)
      · have hlength := hstands.length_le
        rw [List.length_drop] at hlength
        have hstop : column - 1 + (Utf8.encode old).length ≤ text.length := by omega
        simp [hstands, splice?, hstop]
      · simp [hstands]

end LineBuffer

namespace Retry

def Source.between? (source : Source) (low high : Nat) : Option (Nat × Source) := do
  let width ← minus? high low
  let (n, source) := below (width + 1) source.words source.drawn
  some (low + n, source)

def Policy.delay? (p : Policy) (attempt : Nat) (source : Source) : Option (Nat × Source) :=
  if attempt ≤ 1 then some (0, source)
  else do
    let doublings ← minus? attempt 2
    let factor ← shift? 1 (min doublings maxDoublings)
    let mean := capped (capped p.baseMicros * factor)
    if longest mean ≤ shortest mean then some (mean, source)
    else source.between? (shortest mean) (longest mean)

theorem Policy.capped_mul_factor (p : Policy) (attempt : Nat) :
    capped (capped p.baseMicros * 1 <<< min (attempt - 2) maxDoublings) = p.mean attempt := by
  rw [Policy.mean, Nat.shiftLeft_eq, Nat.shiftLeft_eq, Nat.one_mul]

theorem Policy.delay?_eq (p : Policy) (attempt : Nat) (source : Source) :
    p.delay? attempt source = some (p.delay attempt source) := by
  unfold delay? delay
  split
  · rfl
  · next hattempt =>
    have hshift : min (attempt - 2) maxDoublings < wordBits :=
      Nat.lt_of_le_of_lt (Nat.min_le_right ..) (by decide)
    rw [minus?_of_le (by omega)]
    simp only [Option.bind_eq_bind, Option.bind_some, shift?, if_pos hshift,
      p.capped_mul_factor attempt]
    split
    · rfl
    · next hbounds =>
      simp only [Source.between?, Source.between, minus?_of_le (Nat.le_of_not_le hbounds)]
      rfl

end Retry

namespace Ledger

def setFile? (l : Ledger) (n : Nat) (change : RunFile → RunFile) : Option Ledger := do
  let files ← modify? l.files n change
  some { l with files }

def record? (fs : FileSystem) (l : Ledger) (path : Path) (remark : Remark) :
    Option (Except LedgerError Unit × Ledger) :=
  match l.pending fs path with
  | .error e => some (.error e, l.fail e)
  | .ok (n, l) => do
    let l ← l.setFile? n fun f ↦ { f with hasFindings := true }
    some (.ok (), { l with staged := l.staged ++ [{ remark with file := n }] })

def resolveMark? (fs : FileSystem) (l : Ledger) (path : Path) : Option Ledger :=
  match l.pending fs path with
  | .error e => some (l.fail e)
  | .ok (n, l) => l.setFile? n fun f ↦ { f with marked := true }

def resolveMarks? (fs : FileSystem) (l : Ledger) : Option Ledger :=
  l.marks.foldlM (resolveMark? fs) { l with marks := [] }

variable {l : Ledger}

theorem setFile?_of_lt {n : Nat} (h : n < l.files.length) (change : RunFile → RunFile) :
    l.setFile? n change = some (l.setFile n change) := by
  simp [setFile?, setFile, modify?, h]

theorem Sound.record?_eq (h : l.Sound) (fs : FileSystem) (path : Path) (remark : Remark) :
    l.record? fs path remark = some (l.record fs path remark) := by
  unfold record?
  cases hp : l.pending fs path with
  | error e => rw [record_of_error hp]
  | ok r =>
    simp only [record_of_ok hp, setFile?_of_lt (h.pending hp).2]
    rfl

theorem Sound.resolveMark?_eq (h : l.Sound) (fs : FileSystem) (path : Path) :
    l.resolveMark? fs path = some (l.resolveMark fs path) := by
  unfold resolveMark?
  cases hp : l.pending fs path with
  | error e => rw [resolveMark_of_error hp]
  | ok r =>
    simp only [resolveMark_of_ok hp, setFile?_of_lt (h.pending hp).2]
    rfl

theorem Sound.resolveMarks?_eq (h : l.Sound) (fs : FileSystem) :
    l.resolveMarks? fs = some (l.resolveMarks fs) := by
  have hstart : Sound { l with marks := [] } := h.congr rfl rfl rfl rfl
  unfold resolveMarks? Ledger.resolveMarks
  generalize { l with marks := [] } = start at hstart
  induction l.marks generalizing start with
  | nil => rfl
  | cons path rest ih =>
    rw [List.foldlM_cons, hstart.resolveMark?_eq fs path, List.foldl_cons]
    exact ih _ (hstart.resolveMark fs path)

end Ledger

end FindingStore
