import Mathlib.Data.List.Basic

namespace FindingStore

variable {ε ε' α β : Type} {f : α → Except ε β} {xs : List α}

theorem bind_eq_ok {x : Except ε α} {next : α → Except ε β} {b : β} :
    (x >>= next) = .ok b ↔ ∃ a, x = .ok a ∧ next a = .ok b := by
  cases x with
  | error e => exact iff_of_false nofun nofun
  | ok a => exact ⟨fun h ↦ ⟨a, rfl, h⟩, fun ⟨_, rfl, h⟩ ↦ h⟩

theorem map_eq_ok {x : Except ε α} {f : α → β} {b : β} :
    x.map f = .ok b ↔ ∃ a, x = .ok a ∧ f a = b := by
  cases x with
  | error e => exact iff_of_false nofun nofun
  | ok a => simp [Except.map]

theorem mapError_eq_ok {x : Except ε α} {f : ε → ε'} {a : α} :
    x.mapError f = .ok a ↔ x = .ok a := by
  cases x <;> simp [Except.mapError]

theorem mapError_eq_error {x : Except ε α} {f : ε → ε'} {e' : ε'} :
    x.mapError f = .error e' ↔ ∃ e, x = .error e ∧ f e = e' := by
  cases x <;> simp [Except.mapError]

theorem mapM_cons_eq_ok {x : α} {ys : List β} :
    (x :: xs).mapM f = .ok ys ↔ ∃ b bs, f x = .ok b ∧ xs.mapM f = .ok bs ∧ ys = b :: bs := by
  rw [List.mapM_cons, bind_eq_ok]
  constructor
  · rintro ⟨b, hb, h⟩
    obtain ⟨bs, hbs, h⟩ := bind_eq_ok.1 h
    cases h
    exact ⟨b, bs, hb, hbs, rfl⟩
  · rintro ⟨b, bs, hb, hbs, rfl⟩
    exact ⟨b, hb, bind_eq_ok.2 ⟨bs, hbs, rfl⟩⟩

theorem exists_of_mapM_eq_ok {ys : List β} (h : xs.mapM f = .ok ys) {y : β} (hy : y ∈ ys) :
    ∃ x ∈ xs, f x = .ok y := by
  induction xs generalizing ys with
  | nil =>
    cases h
    cases hy
  | cons x xs ih =>
    obtain ⟨b, bs, hb, hbs, rfl⟩ := mapM_cons_eq_ok.1 h
    rcases List.mem_cons.1 hy with rfl | hy
    · exact ⟨x, List.mem_cons_self, hb⟩
    · obtain ⟨x', hx', hfx⟩ := ih hbs hy
      exact ⟨x', List.mem_cons_of_mem _ hx', hfx⟩

/-- Elements that can be told from their results. -/
theorem mapM_eq_ok_iff {p : β → Prop} {g : β → α} (hf : ∀ x y, f x = .ok y ↔ p y ∧ g y = x)
    {ys : List β} : xs.mapM f = .ok ys ↔ (∀ y ∈ ys, p y) ∧ xs = ys.map g := by
  induction xs generalizing ys with
  | nil => cases ys <;> simp [pure, Except.pure]
  | cons x xs ih =>
    rw [mapM_cons_eq_ok]
    constructor
    · rintro ⟨b, bs, hb, hbs, rfl⟩
      obtain ⟨hp, rfl⟩ := (hf _ _).1 hb
      obtain ⟨hps, rfl⟩ := ih.1 hbs
      exact ⟨List.forall_mem_cons.2 ⟨hp, hps⟩, rfl⟩
    · rintro ⟨hp, hxs⟩
      cases ys with
      | nil => cases hxs
      | cons b bs =>
        cases hxs
        obtain ⟨hb, hbs⟩ := List.forall_mem_cons.1 hp
        exact ⟨b, bs, (hf _ _).2 ⟨hb, rfl⟩, ih.2 ⟨hbs, rfl⟩, rfl⟩

theorem mapM_eq_error {e : ε} : xs.mapM f = .error e ↔
    ∃ before x rest ys, xs = before ++ x :: rest ∧ before.mapM f = .ok ys ∧ f x = .error e := by
  induction xs with
  | nil => simp [pure, Except.pure]
  | cons x xs ih =>
    rw [List.mapM_cons]
    cases hx : f x with
    | error e' =>
      constructor
      · rintro ⟨⟩
        exact ⟨[], x, xs, [], rfl, rfl, hx⟩
      · rintro ⟨before, y, rest, ys, hxs, hbefore, hy⟩
        cases before with
        | nil =>
          cases hxs
          cases hx.symm.trans hy
          rfl
        | cons z before =>
          cases hxs
          obtain ⟨b, -, hb, -⟩ := mapM_cons_eq_ok.1 hbefore
          cases hx.symm.trans hb
    | ok b =>
      have hbind : (Except.ok b >>= fun b ↦ xs.mapM f >>= fun bs ↦ pure (b :: bs)) = .error e ↔
          xs.mapM f = .error e := by
        cases xs.mapM f <;> simp [bind, Except.bind, pure, Except.pure]
      rw [hbind, ih]
      constructor
      · rintro ⟨before, y, rest, ys, rfl, hbefore, hy⟩
        exact ⟨x :: before, y, rest, b :: ys, rfl, mapM_cons_eq_ok.2 ⟨b, ys, hx, hbefore, rfl⟩, hy⟩
      · rintro ⟨before, y, rest, ys, hxs, hbefore, hy⟩
        cases before with
        | nil =>
          cases hxs
          cases hx.symm.trans hy
        | cons z before =>
          cases hxs
          obtain ⟨-, bs, -, hbs, -⟩ := mapM_cons_eq_ok.1 hbefore
          exact ⟨before, y, rest, bs, rfl, hbs, hy⟩

end FindingStore
