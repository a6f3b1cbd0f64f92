import FindingStore.Proofs.Ledger.Invariant

namespace FindingStore.Ledger

variable {α : Type} {fs : FileSystem} {seen : List Path} {l l' : Ledger} {p q : Path} {i : Identity}
  {n : Nat} {remark : Remark}

def resolves (fs : FileSystem) (p : Path) : Bool := (fs.resolved? p).isSome

def isSpelled (fs : FileSystem) (seen : List Path) (p : Path) : Bool :=
  seen.any fun q ↦ Path.parts q == Path.parts p && resolves fs q

def knows (fs : FileSystem) (seen : List Path) (p : Path) : Bool :=
  resolves fs p || isSpelled fs seen p

/-- Whether a ledger finds a file at a path that leads nowhere. -/
def strays (fs : FileSystem) (seen : List Path) (p : Path) : Bool :=
  !resolves fs p && isSpelled fs seen p

def isStraight (fs : FileSystem) : (seen : List Path) → List Path → Bool
  | _, [] => true
  | seen, p :: rest => !strays fs seen p && isStraight fs (seen ++ [p]) rest

/-- The things of a list at whose paths a ledger finds a file that looks them up one after the
other, or those at whose paths it finds none. -/
def sift (fs : FileSystem) (path : α → Path) (found : Bool) : (seen : List Path) → List α → List α
  | _, [] => []
  | seen, a :: rest =>
    let others := sift fs path found (seen ++ [path a]) rest
    if knows fs seen (path a) = found then a :: others else others

theorem isSpelled_eq_true : isSpelled fs seen p = true ↔
    ∃ q ∈ seen, Path.parts q = Path.parts p ∧ resolves fs q = true := by
  simp [isSpelled]

theorem knows_of_strays_eq_false (h : strays fs seen p = false) :
    knows fs seen p = resolves fs p := by
  unfold strays at h
  unfold knows
  cases hp : resolves fs p with
  | true => rfl
  | false =>
    rw [hp] at h
    exact h

theorem isStraight_append (paths more : List Path) :
    isStraight fs seen (paths ++ more) =
      (isStraight fs seen paths && isStraight fs (seen ++ paths) more) := by
  induction paths generalizing seen with
  | nil => rw [List.nil_append, List.append_nil, isStraight, Bool.true_and]
  | cons p rest ih =>
    rw [List.cons_append, isStraight, isStraight, ih, List.append_assoc, List.singleton_append,
      Bool.and_assoc]

theorem length_sift (fs : FileSystem) (path : α → Path) (seen : List Path) (xs : List α) :
    (sift fs path true seen xs).length + (sift fs path false seen xs).length = xs.length := by
  induction xs generalizing seen with
  | nil => rfl
  | cons a rest ih =>
    have hrest := ih (seen ++ [path a])
    unfold sift
    cases knows fs seen (path a) <;> simp <;> omega

theorem mem_of_mem_sift {path : α → Path} {found : Bool} {xs : List α} {a : α}
    (h : a ∈ sift fs path found seen xs) : a ∈ xs := by
  induction xs generalizing seen with
  | nil => cases h
  | cons b rest ih =>
    unfold sift at h
    dsimp only at h
    split at h
    · rcases List.mem_cons.1 h with rfl | h
      · exact List.mem_cons_self
      · exact List.mem_cons_of_mem _ (ih h)
    · exact List.mem_cons_of_mem _ (ih h)

theorem sift_of_isStraight {path : α → Path} {xs : List α} (found : Bool)
    (h : isStraight fs seen (xs.map path) = true) :
    sift fs path found seen xs = xs.filter fun a ↦ resolves fs (path a) == found := by
  induction xs generalizing seen with
  | nil => rfl
  | cons a rest ih =>
    rw [List.map_cons, isStraight, Bool.and_eq_true, Bool.not_eq_true'] at h
    unfold sift
    rw [knows_of_strays_eq_false h.1, ih h.2, List.filter_cons]
    simp only [beq_iff_eq]

theorem resolved?_eq_of_spelled (hparts : Path.parts p = Path.parts q)
    (hp : resolves fs p = true) (hq : resolves fs q = true) :
    fs.resolved? p = fs.resolved? q := by
  obtain ⟨i, hi⟩ := Option.isSome_iff_exists.1 hp
  obtain ⟨j, hj⟩ := Option.isSome_iff_exists.1 hq
  obtain ⟨k, -, hk, -, -⟩ := FileSystem.exists_place_of_resolved? hi
  obtain ⟨m, -, hm, -, -⟩ := FileSystem.exists_place_of_resolved? hj
  have hkm : k = m := FileSystem.canonicalize_eq_of_parts_eq hparts hk hm
  exact FileSystem.resolved?_congr (hk.trans (hkm ▸ hm.symm))

structure Spells (fs : FileSystem) (seen : List Path) (l : Ledger) : Prop where
  aliases {parts : Path.Parts} {n : Nat} : l.aliases.lookup parts = some n →
    ∃ q i, q ∈ seen ∧ Path.parts q = parts ∧ fs.resolved? q = some i ∧
      l.canonical.lookup i.path = some n
  seen {q : Path} : q ∈ seen → resolves fs q = true →
    (l.aliases.lookup (Path.parts q)).isSome = true

theorem Spells.empty (fs : FileSystem) (error : Option String) : Spells fs [] { error } where
  aliases h := nomatch h
  seen h := nomatch h

theorem Spells.congr (h : l.Spells fs seen) (hc : l'.canonical = l.canonical)
    (ha : l'.aliases = l.aliases) : l'.Spells fs seen where
  aliases {parts n} hn := by
    rw [ha] at hn
    rw [hc]
    exact h.aliases hn
  seen hq hr := by
    rw [ha]
    exact h.seen hq hr

theorem lookup_enter (l : Ledger) (i : Identity) :
    (l.enter i).2.canonical.lookup i.path = some (l.enter i).1 := by
  cases hn : l.canonical.lookup i.path with
  | some n =>
    rw [enter_of_some hn]
    exact hn
  | none =>
    rw [enter_of_none hn]
    exact List.lookup_cons_self

theorem lookup_enter_of_some {path : String} (i : Identity)
    (h : l.canonical.lookup path = some n) : (l.enter i).2.canonical.lookup path = some n := by
  cases hn : l.canonical.lookup i.path with
  | some k =>
    rw [enter_of_some hn]
    exact h
  | none =>
    have hne : (path == i.path) = false := by
      rw [beq_eq_false_iff_ne]
      rintro rfl
      rw [hn] at h
      cases h
    rw [enter_of_none hn, added, List.lookup_cons, hne]
    exact h

theorem Spells.enter (h : l.Spells fs seen) (hi : fs.resolved? p = some i) :
    ((l.enter i).2.called p (l.enter i).1).Spells fs (seen ++ [p]) where
  aliases {parts m} hm := by
    rw [called, List.lookup_cons] at hm
    split at hm
    · next heq =>
      obtain rfl := beq_iff_eq.1 heq
      obtain rfl := Option.some.inj hm
      exact ⟨p, i, List.mem_append_right _ (List.mem_singleton_self p), rfl, hi, l.lookup_enter i⟩
    · rw [(l.buffers_enter i).1] at hm
      obtain ⟨q, j, hq, hparts, hj, hlookup⟩ := h.aliases hm
      exact ⟨q, j, List.mem_append_left _ hq, hparts, hj, lookup_enter_of_some i hlookup⟩
  seen {q} hq hr := by
    rw [called, List.lookup_cons]
    split
    · rfl
    · next hne =>
      rw [(l.buffers_enter i).1]
      rcases List.mem_append.1 hq with hq | hq
      · exact h.seen hq hr
      · rw [List.mem_singleton.1 hq] at hne
        simp at hne

theorem Spells.append (h : l.Spells fs seen)
    (hp : resolves fs p = true → (l.aliases.lookup (Path.parts p)).isSome = true) :
    l.Spells fs (seen ++ [p]) where
  aliases hn := by
    obtain ⟨q, i, hq, hrest⟩ := h.aliases hn
    exact ⟨q, i, List.mem_append_left _ hq, hrest⟩
  seen hq hr := by
    rcases List.mem_append.1 hq with hq | hq
    · exact h.seen hq hr
    · rw [List.mem_singleton.1 hq] at hr ⊢
      exact hp hr

theorem Spells.lookup_isSome (h : l.Spells fs seen) :
    (l.aliases.lookup (Path.parts p)).isSome = isSpelled fs seen p := by
  rw [Bool.eq_iff_iff, isSpelled_eq_true, Option.isSome_iff_exists]
  constructor
  · rintro ⟨n, hn⟩
    obtain ⟨q, i, hq, hparts, hi, -⟩ := h.aliases hn
    exact ⟨q, hq, hparts, by rw [resolves, hi]; rfl⟩
  · rintro ⟨q, hq, hparts, hr⟩
    rw [← hparts, ← Option.isSome_iff_exists]
    exact h.seen hq hr

/-- A ledger finds a file at the paths that it knows, and at no others. -/
theorem Spells.pending (h : l.Spells fs seen) (p : Path) :
    (knows fs seen p = true ∧
        ∃ n l', l.pending fs p = .ok (n, l') ∧ l'.Spells fs (seen ++ [p])) ∨
      knows fs seen p = false ∧ l.pending fs p = .error (.fileNotFound p) ∧
        l.Spells fs (seen ++ [p]) := by
  have hspelled := h.lookup_isSome (p := p)
  unfold knows
  rw [← hspelled]
  cases hn : l.aliases.lookup (Path.parts p) with
  | some n =>
    exact .inl ⟨Bool.or_true _, n, l, pending_of_some hn, h.append fun _ ↦ by rw [hn]; rfl⟩
  | none =>
    rw [pending_of_none hn, resolves]
    cases hi : fs.resolved? p with
    | some i => exact .inl ⟨rfl, _, _, rfl, h.enter hi⟩
    | none =>
      refine .inr ⟨rfl, rfl, h.append fun hr ↦ ?_⟩
      rw [resolves, hi] at hr
      cases hr

theorem Spells.record (h : l.Spells fs seen) (p : Path) (remark : Remark) :
    (l.record fs p remark).2.Spells fs (seen ++ [p]) ∧
      (l.record fs p remark).1 =
        if knows fs seen p then .ok () else .error (.fileNotFound p) := by
  rcases h.pending p with ⟨hknown, n, l', hp, hspells⟩ | ⟨hunknown, hp, hspells⟩
  · rw [record_of_ok hp, hknown]
    exact ⟨hspells.congr rfl rfl, rfl⟩
  · rw [record_of_error hp, hunknown]
    exact ⟨hspells.congr rfl rfl, rfl⟩

theorem Spells.resolveMark (h : l.Spells fs seen) (p : Path) :
    (l.resolveMark fs p).Spells fs (seen ++ [p]) := by
  rcases h.pending p with ⟨-, n, l', hp, hspells⟩ | ⟨-, hp, hspells⟩
  · rw [resolveMark_of_ok hp]
    exact hspells.congr rfl rfl
  · rw [resolveMark_of_error hp]
    exact hspells.congr rfl rfl

theorem Spells.error_record (h : l.Spells fs seen) (p : Path) (remark : Remark) :
    (l.record fs p remark).2.error = none ↔ l.error = none ∧ knows fs seen p = true := by
  rcases h.pending p with ⟨hknown, n, l', hp, -⟩ | ⟨hunknown, hp, -⟩
  · rw [record_of_ok hp, hknown]
    simp [stage, setFile, (buffers_pending hp).2.2]
  · rw [record_of_error hp, hunknown]
    simp [fail]

theorem Spells.error_resolveMark (h : l.Spells fs seen) (p : Path) :
    (l.resolveMark fs p).error = none ↔ l.error = none ∧ knows fs seen p = true := by
  rcases h.pending p with ⟨hknown, n, l', hp, -⟩ | ⟨hunknown, hp, -⟩
  · rw [resolveMark_of_ok hp, hknown]
    simp [setFile, (buffers_pending hp).2.2]
  · rw [resolveMark_of_error hp, hunknown]
    simp [fail]

theorem Spells.error_foldl_resolveMark {marks : List Path} (h : l.Spells fs seen) :
    (marks.foldl (Ledger.resolveMark fs) l).error = none ↔
      l.error = none ∧ sift fs id false seen marks = [] := by
  induction marks generalizing l seen with
  | nil => simp [sift]
  | cons p rest ih =>
    rw [List.foldl_cons, ih (h.resolveMark p), h.error_resolveMark p, sift]
    cases hknows : knows fs seen p <;> simp [hknows]

theorem Spells.error_resolveMarks (h : l.Spells fs seen) :
    (l.resolveMarks fs).error = none ↔ l.error = none ∧ sift fs id false seen l.marks = [] := by
  have hstart : Spells fs seen { l with marks := [] } := h.congr rfl rfl
  exact hstart.error_foldl_resolveMark

def annotated (marks : List Path → List Path) (error : Option String → Option String)
    (l : Ledger) : Ledger :=
  { l with marks := marks l.marks, error := error l.error }

theorem pending_annotated (marks : List Path → List Path) (error : Option String → Option String)
    (l : Ledger) (p : Path) :
    (l.annotated marks error).pending fs p =
      (l.pending fs p).map fun (n, l) ↦ (n, l.annotated marks error) := by
  have henter (i : Identity) : (l.annotated marks error).enter i =
      ((l.enter i).1, (l.enter i).2.annotated marks error) := by
    unfold Ledger.enter annotated
    dsimp only
    split <;> rfl
  have haliases : (l.annotated marks error).aliases = l.aliases := rfl
  unfold Ledger.pending
  rw [haliases]
  cases l.aliases.lookup (Path.parts p) with
  | some n => rfl
  | none =>
    dsimp only
    rw [henter]
    split <;> rfl

def bare (l : Ledger) : Ledger := { l with marks := [], error := none }

theorem pending_bare (l : Ledger) (p : Path) :
    l.bare.pending fs p = (l.pending fs p).map fun (n, l) ↦ (n, l.bare) :=
  pending_annotated (fun _ ↦ []) (fun _ ↦ none) l p

theorem record_bare (l : Ledger) (p : Path) (remark : Remark) :
    (l.bare.record fs p remark).1 = (l.record fs p remark).1 ∧
      (l.bare.record fs p remark).2.bare = (l.record fs p remark).2.bare := by
  unfold Ledger.record
  rw [pending_bare]
  cases l.pending fs p <;> exact ⟨rfl, rfl⟩

theorem resolveMark_bare (l : Ledger) (p : Path) :
    (l.bare.resolveMark fs p).bare = (l.resolveMark fs p).bare := by
  unfold Ledger.resolveMark
  rw [pending_bare]
  cases l.pending fs p <;> rfl

theorem foldl_resolveMark_congr (marks : List Path) (h : l.bare = l'.bare) :
    (marks.foldl (Ledger.resolveMark fs) l).bare =
      (marks.foldl (Ledger.resolveMark fs) l').bare := by
  induction marks generalizing l l' with
  | nil => exact h
  | cons p rest ih =>
    refine ih ?_
    rw [← resolveMark_bare l, ← resolveMark_bare l', h]

theorem Spells.resolveMark_of_unknown (h : l.Spells fs seen) (hp : knows fs seen p = false) :
    (l.resolveMark fs p).bare = l.bare := by
  rcases h.pending p with ⟨hknown, -⟩ | ⟨-, hpending, -⟩
  · rw [hp] at hknown
    cases hknown
  · rw [resolveMark_of_error hpending]
    rfl

theorem Spells.foldl_resolveMark_sift {marks : List Path} (h : l.Spells fs seen) :
    (marks.foldl (Ledger.resolveMark fs) l).bare =
      ((sift fs id true seen marks).foldl (Ledger.resolveMark fs) l).bare := by
  induction marks generalizing l seen with
  | nil => rfl
  | cons p rest ih =>
    rw [List.foldl_cons, ih (h.resolveMark p), sift]
    cases hknows : knows fs seen p with
    | true => simp [hknows]
    | false =>
      simp only [id_eq, hknows, Bool.false_eq_true, if_false]
      exact foldl_resolveMark_congr _ (h.resolveMark_of_unknown hknows)

end FindingStore.Ledger
