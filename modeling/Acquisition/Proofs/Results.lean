import Acquisition.Failure
import Mathlib.Data.List.Forall2

/-!
# Results of checked computations

When a computation that may fail has a value, each of its parts has one. This
takes composed computations and loops over lists apart.
-/
namespace Acquisition.Checked

variable {ε α β : Type}

theorem bind_eq_ok {x : Except ε α} {f : α → Except ε β} {b : β} :
    x >>= f = .ok b ↔ ∃ a, x = .ok a ∧ f a = .ok b := by
  cases x with
  | error e => simp [bind, Except.bind]
  | ok a => simp [bind, Except.bind]

theorem bind_eq_error {x : Except ε α} {f : α → Except ε β} {e : ε} :
    x >>= f = .error e ↔ x = .error e ∨ ∃ a, x = .ok a ∧ f a = .error e := by
  cases x with
  | error e => simp [bind, Except.bind]
  | ok a => simp [bind, Except.bind]

theorem map_eq_ok {x : Except ε α} {f : α → β} {b : β} :
    f <$> x = .ok b ↔ ∃ a, x = .ok a ∧ f a = b := by
  cases x with
  | error e => simp [Functor.map, Except.map]
  | ok a => simp [Functor.map, Except.map]

theorem pure_eq_ok {a b : α} : (pure a : Except ε α) = .ok b ↔ a = b := by
  simp [pure, Except.pure]

theorem mapError_eq_ok {ε' : Type} {g : ε → ε'} {x : Except ε α} {a : α} :
    x.mapError g = .ok a ↔ x = .ok a := by
  cases x with
  | error e => simp [Except.mapError]
  | ok b => simp [Except.mapError]

theorem pair_eq_ok {a : α} {x : Except ε β} {p : α × β} :
    (do return (a, ← x)) = Except.ok p ↔ p.1 = a ∧ x = .ok p.2 := by
  cases x with
  | error e => simp [bind, Except.bind]
  | ok b => simp [bind, Except.bind, pure, Except.pure, Prod.ext_iff, eq_comm]

theorem pair_eq_error {a : α} {x : Except ε β} {e : ε} :
    (do return (a, ← x) : Except ε (α × β)) = .error e ↔ x = .error e := by
  cases x with
  | error e => simp [bind, Except.bind]
  | ok b => simp [bind, Except.bind, pure, Except.pure]

theorem mapM_eq_ok {f : α → Except ε β} {xs : List α} {ys : List β} :
    xs.mapM f = .ok ys ↔ List.Forall₂ (fun x y => f x = .ok y) xs ys := by
  induction xs generalizing ys with
  | nil => simp [pure, Except.pure, eq_comm]
  | cons x xs ih =>
    simp only [List.mapM_cons, bind_eq_ok, pure_eq_ok, ih]
    constructor
    · rintro ⟨y, hy, zs, hzs, rfl⟩
      exact .cons hy hzs
    · rintro (_ | ⟨hy, hzs⟩)
      exact ⟨_, hy, _, hzs, rfl⟩

theorem map_fst_of_mapM {f : α → Except ε β} {xs : List α} {ps : List (α × β)}
    (h : xs.mapM (fun x => do return (x, ← f x)) = .ok ps) : ps.map (·.1) = xs := by
  induction xs generalizing ps with
  | nil =>
    cases h
    rfl
  | cons x xs ih =>
    rw [List.mapM_cons, bind_eq_ok] at h
    obtain ⟨p, hp, h⟩ := h
    rw [bind_eq_ok] at h
    obtain ⟨qs, hqs, h⟩ := h
    cases h
    rw [List.map_cons, ih hqs, (pair_eq_ok.1 hp).1]

theorem mem_of_mapM {f : α → Except ε β} {xs : List α} {ys : List β} (h : xs.mapM f = .ok ys)
    {y : β} : y ∈ ys ↔ ∃ x ∈ xs, f x = .ok y := by
  rw [mapM_eq_ok] at h
  induction h with
  | nil => simp
  | @cons x z xs ys hx _ ih =>
    rw [List.mem_cons, ih]
    constructor
    · rintro (rfl | ⟨x', hx', hy⟩)
      · exact ⟨x, List.mem_cons_self, hx⟩
      · exact ⟨x', List.mem_cons_of_mem _ hx', hy⟩
    · rintro ⟨x', hx', hy⟩
      rcases List.mem_cons.1 hx' with rfl | hx'
      · exact .inl (Except.ok.inj (hy.symm.trans hx))
      · exact .inr ⟨x', hx', hy⟩

theorem mapM_ok_of_mem {f : α → Except ε β} {xs : List α} {ys : List β}
    (h : xs.mapM f = .ok ys) {x : α} (hx : x ∈ xs) : ∃ y ∈ ys, f x = .ok y := by
  rw [mapM_eq_ok] at h
  induction h with
  | nil => cases hx
  | @cons x' z xs ys hz _ ih =>
    rcases List.mem_cons.1 hx with rfl | hx
    · exact ⟨z, List.mem_cons_self, hz⟩
    · obtain ⟨y, hy, hfy⟩ := ih hx
      exact ⟨y, List.mem_cons_of_mem _ hy, hfy⟩

theorem exists_mapM (f : α → Except ε β) {xs : List α} (h : ∀ x ∈ xs, ∃ y, f x = .ok y) :
    ∃ ys, xs.mapM f = .ok ys := by
  induction xs with
  | nil => exact ⟨[], rfl⟩
  | cons x xs ih =>
    obtain ⟨y, hy⟩ := h x List.mem_cons_self
    obtain ⟨ys, hys⟩ := ih fun z hz => h z (List.mem_cons_of_mem _ hz)
    exact ⟨y :: ys, mapM_eq_ok.2 (.cons hy (mapM_eq_ok.1 hys))⟩

theorem mapM_eq_error {f : α → Except ε β} {xs : List α} {e : ε} (h : xs.mapM f = .error e) :
    ∃ x ∈ xs, f x = .error e := by
  induction xs with
  | nil => cases h
  | cons x xs ih =>
    rw [List.mapM_cons, bind_eq_error] at h
    rcases h with hx | ⟨y, -, h⟩
    · exact ⟨x, List.mem_cons_self, hx⟩
    · rw [bind_eq_error] at h
      rcases h with hxs | ⟨ys, -, h⟩
      · obtain ⟨z, hz, he⟩ := ih hxs
        exact ⟨z, List.mem_cons_of_mem x hz, he⟩
      · cases h

theorem filterAuxM_eq_ok {p : α → Except ε Bool} {xs acc ys : List α}
    (h : xs.filterAuxM p acc = .ok ys) :
    (∀ x ∈ xs, ∃ b, p x = .ok b) ∧ ys.reverse.Sublist (acc.reverse ++ xs) ∧
      ∀ x, x ∈ ys ↔ x ∈ acc ∨ (x ∈ xs ∧ p x = .ok true) := by
  induction xs generalizing acc with
  | nil =>
    have : acc = ys := Except.ok.inj h
    subst this
    simp
  | cons x xs ih =>
    rw [List.filterAuxM, bind_eq_ok] at h
    obtain ⟨b, hb, h⟩ := h
    obtain ⟨htot, hsub, hmem⟩ := ih h
    refine ⟨fun y hy => ?_, ?_, fun y => ?_⟩
    · rcases List.mem_cons.1 hy with rfl | hy
      · exact ⟨b, hb⟩
      · exact htot y hy
    · cases b with
      | false => exact hsub.trans ((List.Sublist.refl _).append (List.sublist_cons_self x xs))
      | true => simpa using hsub
    · rw [hmem, List.mem_cons]
      cases b with
      | false =>
        refine or_congr Iff.rfl ⟨fun ⟨hy, hp⟩ => ⟨.inr hy, hp⟩, fun ⟨hy, hp⟩ => ⟨?_, hp⟩⟩
        refine hy.resolve_left fun e => ?_
        rw [e, hb] at hp
        cases hp
      | true =>
        rw [cond_true, List.mem_cons]
        constructor
        · rintro ((rfl | hy) | ⟨hy, hp⟩)
          · exact .inr ⟨.inl rfl, hb⟩
          · exact .inl hy
          · exact .inr ⟨.inr hy, hp⟩
        · rintro (hy | ⟨rfl | hy, hp⟩)
          · exact .inl (.inr hy)
          · exact .inl (.inl rfl)
          · exact .inr ⟨hy, hp⟩

/-- What a filter keeps: the elements that pass, in order. -/
theorem filterM_eq_ok {p : α → Except ε Bool} {xs ys : List α} (h : xs.filterM p = .ok ys) :
    (∀ x ∈ xs, ∃ b, p x = .ok b) ∧ ys.Sublist xs ∧ ∀ x, x ∈ ys ↔ x ∈ xs ∧ p x = .ok true := by
  rw [List.filterM, bind_eq_ok] at h
  obtain ⟨zs, hzs, h⟩ := h
  have e : zs.reverse = ys := Except.ok.inj h
  subst e
  obtain ⟨htot, hsub, hmem⟩ := filterAuxM_eq_ok hzs
  exact ⟨htot, by simpa using hsub, by simpa using hmem⟩

theorem filterAuxM_eq_error {p : α → Except ε Bool} {xs acc : List α} {e : ε}
    (h : xs.filterAuxM p acc = .error e) : ∃ x ∈ xs, p x = .error e := by
  induction xs generalizing acc with
  | nil => cases h
  | cons x xs ih =>
    cases hx : p x with
    | error e' =>
      rw [List.filterAuxM, hx] at h
      cases h
      exact ⟨x, List.mem_cons_self, hx⟩
    | ok b =>
      rw [List.filterAuxM, hx] at h
      obtain ⟨y, hy, he⟩ := ih h
      exact ⟨y, List.mem_cons_of_mem x hy, he⟩

theorem filterM_eq_error {p : α → Except ε Bool} {xs : List α} {e : ε}
    (h : xs.filterM p = .error e) : ∃ x ∈ xs, p x = .error e := by
  rw [List.filterM] at h
  cases ha : xs.filterAuxM p [] with
  | error e' =>
    rw [ha] at h
    cases h
    exact filterAuxM_eq_error ha
  | ok ys =>
    rw [ha] at h
    cases h

theorem allM_eq_ok {p : α → Except ε Bool} {xs : List α} {b : Bool} (h : xs.allM p = .ok b) :
    (b = true → ∀ x ∈ xs, p x = .ok true) ∧ (b = false → ∃ x ∈ xs, p x = .ok false) := by
  induction xs with
  | nil =>
    have : true = b := Except.ok.inj h
    subst this
    simp
  | cons x xs ih =>
    rw [List.allM, bind_eq_ok] at h
    obtain ⟨c, hc, h⟩ := h
    cases c with
    | false =>
      have : false = b := Except.ok.inj h
      subst this
      exact ⟨nofun, fun _ => ⟨x, List.mem_cons_self, hc⟩⟩
    | true =>
      obtain ⟨ht, hf⟩ := ih h
      refine ⟨fun hb y hy => ?_, fun hb => ?_⟩
      · rcases List.mem_cons.1 hy with rfl | hy
        · exact hc
        · exact ht hb y hy
      · obtain ⟨y, hy, hpy⟩ := hf hb
        exact ⟨y, List.mem_cons_of_mem _ hy, hpy⟩

theorem allM_eq_error {p : α → Except ε Bool} {xs : List α} {e : ε} (h : xs.allM p = .error e) :
    ∃ x ∈ xs, p x = .error e := by
  induction xs with
  | nil => cases h
  | cons x xs ih =>
    rw [List.allM] at h
    cases hx : p x with
    | error e' =>
      rw [hx] at h
      cases h
      exact ⟨x, List.mem_cons_self, hx⟩
    | ok b =>
      rw [hx] at h
      cases b with
      | false => cases h
      | true =>
        obtain ⟨y, hy, hpy⟩ := ih h
        exact ⟨y, List.mem_cons_of_mem _ hy, hpy⟩

theorem anyM_eq_error {p : α → Except ε Bool} {xs : List α} {e : ε} (h : xs.anyM p = .error e) :
    ∃ x ∈ xs, p x = .error e := by
  induction xs with
  | nil => cases h
  | cons x xs ih =>
    rw [List.anyM] at h
    cases hx : p x with
    | error e' =>
      rw [hx] at h
      cases h
      exact ⟨x, List.mem_cons_self, hx⟩
    | ok b =>
      rw [hx] at h
      cases b with
      | true => cases h
      | false =>
        obtain ⟨y, hy, hpy⟩ := ih h
        exact ⟨y, List.mem_cons_of_mem _ hy, hpy⟩

theorem anyM_eq_true {p : α → Except ε Bool} {xs : List α} (h : xs.anyM p = .ok true) :
    ∃ x ∈ xs, p x = .ok true := by
  induction xs with
  | nil => cases h
  | cons x xs ih =>
    rw [List.anyM, bind_eq_ok] at h
    obtain ⟨b, hb, h⟩ := h
    cases b with
    | true => exact ⟨x, List.mem_cons_self, hb⟩
    | false =>
      obtain ⟨y, hy, hpy⟩ := ih h
      exact ⟨y, List.mem_cons_of_mem _ hy, hpy⟩

theorem anyM_eq_false {p : α → Except ε Bool} {xs : List α} (h : xs.anyM p = .ok false) :
    ∀ x ∈ xs, p x = .ok false := by
  induction xs with
  | nil => exact nofun
  | cons x xs ih =>
    rw [List.anyM, bind_eq_ok] at h
    obtain ⟨b, hb, h⟩ := h
    cases b with
    | true => cases h
    | false => exact List.forall_mem_cons.2 ⟨hb, ih h⟩

theorem findSomeM_eq_some {f : α → Except ε (Option β)} {xs : List α} {b : β}
    (h : xs.findSomeM? f = .ok (some b)) : ∃ x ∈ xs, f x = .ok (some b) := by
  induction xs with
  | nil => cases h
  | cons x xs ih =>
    rw [List.findSomeM?, bind_eq_ok] at h
    obtain ⟨r, hr, h⟩ := h
    cases r with
    | some b' =>
      cases h
      exact ⟨x, List.mem_cons_self, hr⟩
    | none =>
      obtain ⟨y, hy, hb⟩ := ih h
      exact ⟨y, List.mem_cons_of_mem x hy, hb⟩

theorem findSomeM_eq_none {f : α → Except ε (Option β)} {xs : List α}
    (h : xs.findSomeM? f = .ok none) : ∀ x ∈ xs, f x = .ok none := by
  induction xs with
  | nil => exact nofun
  | cons x xs ih =>
    rw [List.findSomeM?, bind_eq_ok] at h
    obtain ⟨r, hr, h⟩ := h
    cases r with
    | some b => cases h
    | none => exact List.forall_mem_cons.2 ⟨hr, ih h⟩

theorem findSomeM_eq_error {f : α → Except ε (Option β)} {xs : List α} {e : ε}
    (h : xs.findSomeM? f = .error e) : ∃ x ∈ xs, f x = .error e := by
  induction xs with
  | nil => cases h
  | cons x xs ih =>
    rw [List.findSomeM?, bind_eq_error] at h
    rcases h with hx | ⟨r, -, h⟩
    · exact ⟨x, List.mem_cons_self, hx⟩
    · cases r with
      | some b => cases h
      | none =>
        obtain ⟨y, hy, he⟩ := ih h
        exact ⟨y, List.mem_cons_of_mem x hy, he⟩

theorem exists_findSomeM {f : α → Except ε (Option β)} {xs : List α}
    (h : ∀ x ∈ xs, ∃ r, f x = .ok r) : ∃ r, xs.findSomeM? f = .ok r := by
  cases hfound : xs.findSomeM? f with
  | ok r => exact ⟨r, rfl⟩
  | error e =>
    obtain ⟨x, hx, he⟩ := findSomeM_eq_error hfound
    obtain ⟨r, hr⟩ := h x hx
    rw [hr] at he
    cases he

end Acquisition.Checked
