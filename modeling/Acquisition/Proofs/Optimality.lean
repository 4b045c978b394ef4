import Acquisition.Sat.Dpll
import Acquisition.Proofs.Exhaustive
import Acquisition.Proofs.Forcing

/-!
# The search for models finds the best one

The search looks at the valuations that agree with an assignment in two halves, of which
the one with the false atom comes first. What it has at hand afterwards is the best of what
it had before and of the valuations looked at: a cheaper one is taken, and one that costs as
much is not, since it comes later. Half a search is saved where no valuation can be cheaper,
which is told by the least cost or, without an objective, by any model at all.
-/
namespace Acquisition.Sat

/-- What the literals that hold weigh together. -/
def costOf (objective : List (Literal × Int)) (v : Atom → Bool) : Int :=
  ((objective.filter fun t => decide (t.1.Holds v)).map (·.2)).sum

/-- At the first of the listed atoms on which they differ the first valuation is false, where
lower atoms come first. -/
def Precedes (as : List Atom) (v w : Atom → Bool) : Prop :=
  ∃ a ∈ as, v a = false ∧ w a = true ∧ ∀ b ∈ as, b < a → v b = w b

/-- However some of the weights are chosen, their sum is a signed word. -/
def SumsFit (objective : List (Literal × Int)) : Prop :=
  ∀ ws : List Int, ws.Sublist (objective.map (·.2)) → Checked.isSigned ws.sum = true

theorem costOf_cons (t : Literal × Int) (objective : List (Literal × Int)) (v : Atom → Bool) :
    costOf (t :: objective) v = (if t.1.Holds v then t.2 else 0) + costOf objective v := by
  unfold costOf
  rw [List.filter_cons]
  by_cases h : t.1.Holds v
  · simp [h]
  · simp [h]

theorem costOf_congr {objective : List (Literal × Int)} {v w : Atom → Bool}
    (h : ∀ t ∈ objective, v t.1.atom = w t.1.atom) : costOf objective v = costOf objective w := by
  unfold costOf
  rw [List.filter_congr]
  intro t ht
  rw [decide_eq_decide, Literal.Holds, Literal.Holds, h t ht]

/-- A sum that leaves its word has a part that does. -/
theorem foldlM_signed_eq_error {xs : List Int} {i : Int} {e : Fault}
    (h : xs.foldlM (fun total x => Checked.signed (total + x)) i = .error e) :
    e = .overflow ∧ ∃ k, Checked.isSigned (i + (xs.take k).sum) = false := by
  induction xs generalizing i with
  | nil => cases h
  | cons x xs ih =>
    rw [List.foldlM_cons] at h
    unfold Checked.signed at h
    split at h
    · obtain ⟨he, k, hk⟩ := ih h
      refine ⟨he, k + 1, ?_⟩
      rwa [List.take_succ_cons, List.sum_cons, ← add_assoc]
    · next hx =>
      cases h
      refine ⟨rfl, 1, ?_⟩
      simpa using hx

namespace Problem

open Assignment

variable {P : Problem} {m : Assignment} {v : Atom → Bool}

/-! ### Costs -/

theorem cost_eq_ok {c : Int} (hall : ∀ t ∈ P.objective, (m.value t.1.atom).isSome)
    (h : P.cost m = .ok c) : c = costOf P.objective m.truth := by
  rw [Checked.sumSigned_eq_ok h, costOf]
  congr 2
  apply List.filter_congr
  intro t ht
  rw [Bool.eq_iff_iff, decide_eq_true_iff]
  exact (agrees_truth m).holds_iff (hall t ht)

/-- What a literal contributes to the least cost. -/
def share (m : Assignment) (t : Literal × Int) : Int :=
  match m.literal t.1 with
  | some true => t.2
  | some false => 0
  | none => min t.2 0

theorem share_eq_or (m : Assignment) (t : Literal × Int) : share m t = 0 ∨ share m t = t.2 := by
  unfold share
  split
  · exact .inr rfl
  · exact .inl rfl
  · omega

theorem share_le (hm : m.Agrees v) (t : Literal × Int) :
    share m t ≤ if t.1.Holds v then t.2 else 0 := by
  unfold share
  split
  · next h =>
    have hholds : m.holds t.1 = true := by rw [holds_eq, h]; rfl
    rw [if_pos (hm.holds hholds)]
  · next h =>
    have hholds : m.holds t.1 = false := by rw [holds_eq, h]; rfl
    have hopen : m.isOpen t.1 = false := by rw [isOpen_eq, h]; rfl
    rw [if_neg (hm.fails hholds hopen)]
  · split
    · exact Int.min_le_left ..
    · exact Int.min_le_right ..

theorem leastCost_eq_ok {c : Int} (h : P.leastCost m = .ok c) :
    c = (P.objective.map (share m)).sum := Checked.sumSigned_eq_ok h

/-- No valuation that agrees with the assignment costs less. -/
theorem leastCost_le {c : Int} (h : P.leastCost m = .ok c) (hm : m.Agrees v) :
    c ≤ costOf P.objective v := by
  rw [leastCost_eq_ok h]
  generalize P.objective = objective
  induction objective with
  | nil => exact Int.le_refl 0
  | cons t objective ih =>
    rw [List.map_cons, List.sum_cons, costOf_cons]
    exact Int.add_le_add (share_le hm t) ih

theorem leastCost_eq_costOf {c : Int} (hall : ∀ t ∈ P.objective, (m.value t.1.atom).isSome)
    (h : P.leastCost m = .ok c) : c = costOf P.objective m.truth := by
  rw [leastCost_eq_ok h]
  revert hall
  generalize P.objective = objective
  intro hall
  induction objective with
  | nil => rfl
  | cons t objective ih =>
    obtain ⟨ht, hrest⟩ := List.forall_mem_cons.1 hall
    rw [List.map_cons, List.sum_cons, costOf_cons, ih hrest]
    congr 1
    have hiff := (agrees_truth m).holds_iff ht
    obtain ⟨b, hb⟩ := Option.isSome_iff_exists.1 ht
    rw [holds_eq] at hiff
    unfold share
    rw [literal, hb, Option.map_some] at hiff ⊢
    cases hn : b != t.1.negated with
    | true =>
      rw [hn] at hiff
      rw [if_pos (hiff.1 rfl)]
    | false =>
      rw [hn] at hiff
      rw [if_neg fun hholds => absurd (hiff.2 hholds) (by decide)]

theorem sublist_of_shares (m : Assignment) (objective : List (Literal × Int)) :
    ∃ ws : List Int, ws.Sublist (objective.map (·.2)) ∧ ws.sum = (objective.map (share m)).sum := by
  induction objective with
  | nil => exact ⟨[], .slnil, rfl⟩
  | cons t objective ih =>
    obtain ⟨ws, hws, hsum⟩ := ih
    rw [List.map_cons, List.map_cons, List.sum_cons]
    rcases share_eq_or m t with h | h
    · exact ⟨ws, hws.cons _, by rw [h, hsum, zero_add]⟩
    · exact ⟨t.2 :: ws, hws.cons_cons _, by rw [h, List.sum_cons, hsum]⟩

/-- The failure of a search: a sum of weights leaves its word. -/
def Spills (P : Problem) (e : Fault) : Prop := e = .overflow ∧ ¬ SumsFit P.objective

theorem cost_eq_error {e : Fault} (h : P.cost m = .error e) : P.Spills e := by
  obtain ⟨he, k, hk⟩ := foldlM_signed_eq_error h
  refine ⟨he, ?_⟩
  intro hfit
  have hsub : ((P.objective.filter fun t => m.holds t.1).map (·.2)).Sublist
      (P.objective.map (·.2)) := List.filter_sublist.map _
  rw [Int.zero_add, hfit _ ((List.take_sublist k _).trans hsub)] at hk
  cases hk

theorem leastCost_eq_error {e : Fault} (h : P.leastCost m = .error e) : P.Spills e := by
  obtain ⟨he, k, hk⟩ := foldlM_signed_eq_error h
  refine ⟨he, ?_⟩
  intro hfit
  obtain ⟨ws, hws, hsum⟩ := sublist_of_shares m (P.objective.take k)
  rw [List.map_take] at hws
  have hsigned := hfit ws (hws.trans (List.take_sublist k _))
  rw [hsum, List.map_take] at hsigned
  rw [Int.zero_add] at hk
  exact Bool.noConfusion (hsigned.symm.trans hk)

/-! ### The best model so far -/

/-- The valuations that satisfy the problem and agree with the assignment. -/
def Candidate (P : Problem) (m : Assignment) (v : Atom → Bool) : Prop :=
  P.Satisfied v ∧ m.Agrees v

/-- The first valuation is cheaper, or it costs as much and is the same on the atoms of the
problem or comes first. -/
def Prefers (P : Problem) (v w : Atom → Bool) : Prop :=
  costOf P.objective v < costOf P.objective w ∨
    costOf P.objective v = costOf P.objective w ∧
      ((∀ a ∈ P.atoms, v a = w a) ∨ Precedes P.atoms v w)

/-- No valuation of `S` is cheaper than the model at hand. -/
def Covers (P : Problem) (S : (Atom → Bool) → Prop) (best : Best) : Prop :=
  ∀ v, S v → ∃ b least, best = some (b, least) ∧ least ≤ costOf P.objective v

/-- Once the valuations of `S` are looked at, the best model is the one from before if none
of them is cheaper, and otherwise the one of them that is preferred to all. -/
inductive Improves (P : Problem) (S : (Atom → Bool) → Prop) (best : Best) : Best → Prop
  | stays : P.Covers S best → Improves P S best best
  | found (m : Assignment) : S m.truth →
      (∀ b least, best = some (b, least) → costOf P.objective m.truth < least) →
      (∀ w, S w → P.Prefers m.truth w) →
      Improves P S best (some (m, costOf P.objective m.truth))

theorem Improves.congr {S S' : (Atom → Bool) → Prop} {best best' : Best}
    (h : P.Improves S best best') (hS : ∀ v, S' v ↔ S v) : P.Improves S' best best' := by
  have hsame : S' = S := funext fun v => propext (hS v)
  rwa [hsame]

theorem Prefers.le {v w : Atom → Bool} (h : P.Prefers v w) :
    costOf P.objective v ≤ costOf P.objective w := by
  rcases h with h | ⟨h, -⟩
  · exact Int.le_of_lt h
  · exact Int.le_of_eq h

/-- What comes later is preferred only if it is cheaper. -/
theorem prefers_of_le {v w : Atom → Bool} (h : costOf P.objective v ≤ costOf P.objective w)
    (hfirst : Precedes P.atoms v w) : P.Prefers v w := by
  rcases Int.lt_or_eq_of_le h with h | h
  · exact .inl h
  · exact .inr ⟨h, .inr hfirst⟩

/-- Valuations are looked at in two parts, of which the first comes first. -/
theorem Improves.union {S T : (Atom → Bool) → Prop} {best best' best'' : Best}
    (h : P.Improves S best best') (h' : P.Improves T best' best'')
    (hfirst : ∀ v w, S v → T w → Precedes P.atoms v w) :
    P.Improves (fun v => S v ∨ T v) best best'' := by
  cases h' with
  | stays hT =>
    cases h with
    | stays hS => exact .stays fun v hv => hv.elim (hS v) (hT v)
    | found m hm hbest hpref =>
      apply Improves.found m (.inl hm) hbest
      rintro w (hw | hw)
      · exact hpref w hw
      · obtain ⟨b, least, hleast, hle⟩ := hT w hw
        cases hleast
        exact prefers_of_le hle (hfirst m.truth w hm hw)
  | found m hm hbest' hpref' =>
    cases h with
    | stays hS =>
      apply Improves.found m (.inr hm) hbest'
      rintro w (hw | hw)
      · obtain ⟨b, least, hleast, hle⟩ := hS w hw
        exact .inl (Int.lt_of_lt_of_le (hbest' b least hleast) hle)
      · exact hpref' w hw
    | found m₁ hm₁ hbest hpref =>
      have hcheaper := hbest' m₁ _ rfl
      apply Improves.found m (.inr hm)
      · intro b least hleast
        exact Int.lt_trans hcheaper (hbest b least hleast)
      · rintro w (hw | hw)
        · exact .inl (Int.lt_of_lt_of_le hcheaper (hpref w hw).le)
        · exact hpref' w hw

/-! ### The search -/

/-- The assignment is below the least cost of the best model, so that models of it may be
cheaper. Without an objective there is no best model yet. -/
structure Open (P : Problem) (m : Assignment) (best : Best) : Prop where
  below : ∀ b least, best = some (b, least) → ∃ c, P.leastCost m = .ok c ∧ c < least
  fresh : P.objective = [] → best = none

/-- An assignment that forces nothing, with values for the atoms that do not remain. -/
structure Ready (P : Problem) (rest : List Atom) (m : Assignment) : Prop where
  listed : P.Listed m.values.size
  quiet : P.extend m = .reached m false
  settled : ∃ done, P.atoms = done ++ rest ∧ ∀ a ∈ done, (m.value a).isSome

theorem Candidate.grows {m' : Assignment} (hP : P.Listed m.values.size)
    (h : P.propagate m = some m') (v : Atom → Bool) : P.Candidate m v ↔ P.Candidate m' v := by
  obtain ⟨hgrows, hagrees, -⟩ := propagate_eq_some hP h
  constructor
  · rintro ⟨hv, hm⟩
    exact ⟨hv, hagrees v hv hm⟩
  · rintro ⟨hv, hm⟩
    exact ⟨hv, hgrows.agrees hm⟩

/-- An assignment is entered where it does not conflict and may lead to a cheaper model. -/
theorem enter_improves {next : Assignment → Best → Checked Best} {best best' : Best}
    (hP : P.Listed m.values.size) (hfresh : P.objective = [] → best = none)
    (hnext : ∀ m', P.propagate m = some m' → P.Open m' best → ∀ best',
      next m' best = .ok best' → P.Improves (P.Candidate m') best best')
    (h : P.enter next m best = .ok best') : P.Improves (P.Candidate m) best best' := by
  unfold enter at h
  split at h
  · next hconflict =>
    cases h
    apply Improves.stays
    rintro v ⟨hv, hm⟩
    exact absurd hm (propagate_eq_none hP hconflict hv)
  · next m' hm' =>
    apply Improves.congr _ (Candidate.grows hP hm')
    exact hnext m' hm' ⟨nofun, hfresh⟩ best' h
  · next m' b least hm' =>
    apply Improves.congr _ (Candidate.grows hP hm')
    rw [Checked.bind_eq_ok] at h
    obtain ⟨c, hc, h⟩ := h
    split at h
    · next hle =>
      cases h
      apply Improves.stays
      rintro v ⟨-, hm⟩
      exact ⟨b, least, rfl, Int.le_trans hle (leastCost_le hc hm)⟩
    · next hlt =>
      apply hnext m' hm' _ best' h
      refine ⟨?_, hfresh⟩
      intro b' least' hbest
      cases hbest
      exact ⟨c, hc, Int.not_le.1 hlt⟩

theorem Candidate.assign {a : Atom} (ha : a < m.values.size) (hopen : m.value a = none)
    (v : Atom → Bool) (b : Bool) : P.Candidate (m.assign a b) v ↔ P.Candidate m v ∧ v a = b := by
  constructor
  · rintro ⟨hv, hm⟩
    refine ⟨⟨hv, (grows_assign ha hopen b).agrees hm⟩, ?_⟩
    apply hm
    rw [value_assign ha, if_pos rfl]
  · rintro ⟨⟨hv, hm⟩, hb⟩
    exact ⟨hv, agrees_assign hm ha hb⟩

/-- Where every atom is settled, the assignment itself is the only model that agrees. -/
theorem improves_settled {best : Best} {c : Int} (hready : P.Ready [] m) (hopen : P.Open m best)
    (hc : P.cost m = .ok c) : P.Improves (P.Candidate m) best (some (m, c)) := by
  obtain ⟨done, hdone, hsettled⟩ := hready.settled
  rw [List.append_nil] at hdone
  rw [← hdone] at hsettled
  have hall : ∀ l, P.Mentions l → (m.value l.atom).isSome :=
    fun l hl => hsettled _ (hready.listed.mem l hl)
  have hobjective : ∀ t ∈ P.objective, (m.value t.1.atom).isSome :=
    fun t ht => hall t.1 (.inr (.inr ⟨t, ht, rfl⟩))
  have hsame : ∀ w, m.Agrees w → ∀ a ∈ P.atoms, m.truth a = w a := by
    intro w hw a ha
    obtain ⟨b, hb⟩ := Option.isSome_iff_exists.1 (hsettled a ha)
    rw [agrees_truth m a b hb, hw a b hb]
  rw [cost_eq_ok hobjective hc]
  apply Improves.found m ⟨satisfied_truth hready.quiet hall, agrees_truth m⟩
  · intro b least hbest
    obtain ⟨c', hc', hlt⟩ := hopen.below b least hbest
    rwa [leastCost_eq_costOf hobjective hc'] at hlt
  · rintro w ⟨-, hw⟩
    refine .inr ⟨?_, .inl (hsame w hw)⟩
    apply costOf_congr
    intro t ht
    exact hsame w hw _ (hready.listed.mem t.1 (.inr (.inr ⟨t, ht, rfl⟩)))

theorem Ready.mem {a : Atom} {rest : List Atom} (h : P.Ready (a :: rest) m) : a ∈ P.atoms := by
  obtain ⟨done, hdone, -⟩ := h.settled
  rw [hdone]
  exact List.mem_append_right done List.mem_cons_self

/-- A settled atom does not remain. -/
theorem Ready.settle {a : Atom} {rest : List Atom} {m' : Assignment} (h : P.Ready (a :: rest) m)
    (hgrows : m.Grows m') (hquiet : P.extend m' = .reached m' false)
    (ha : (m'.value a).isSome) : P.Ready rest m' := by
  obtain ⟨done, hdone, hsettled⟩ := h.settled
  refine ⟨hgrows.size ▸ h.listed, hquiet, done ++ [a], by rw [hdone, List.append_assoc]; rfl, ?_⟩
  intro a' ha'
  rcases List.mem_append.1 ha' with ha' | ha'
  · exact hgrows.isSome (hsettled a' ha')
  · rwa [List.mem_singleton.1 ha']

theorem Ready.assign {a : Atom} {rest : List Atom} {m' : Assignment} {b : Bool}
    (h : P.Ready (a :: rest) m) (hnone : m.value a = none)
    (hm' : P.propagate (m.assign a b) = some m') : P.Ready rest m' := by
  have ha := h.listed.lt a h.mem
  have hlisted : P.Listed (m.assign a b).values.size := by
    rw [size_assign]
    exact h.listed
  obtain ⟨hgrows, -, hquiet⟩ := propagate_eq_some hlisted hm'
  apply h.settle ((grows_assign ha hnone b).trans hgrows) hquiet
  apply hgrows.isSome
  rw [value_assign ha, if_pos rfl]
  rfl

/-- The models with the first remaining atom false come before those with it true: on lower
atoms they agree. -/
theorem Ready.precedes {a : Atom} {rest : List Atom} {w : Atom → Bool}
    (h : P.Ready (a :: rest) m) (hm : m.Agrees v) (hm' : m.Agrees w) (hv : v a = false)
    (hw : w a = true) : Precedes P.atoms v w := by
  obtain ⟨done, hdone, hsettled⟩ := h.settled
  refine ⟨a, h.mem, hv, hw, ?_⟩
  intro b hb hlt
  have hincreasing := h.listed.increasing
  rw [hdone] at hb hincreasing
  rw [List.pairwise_append, List.pairwise_cons] at hincreasing
  have hbdone : b ∈ done := by
    rcases List.mem_append.1 hb with hb | hb
    · exact hb
    · rcases List.mem_cons.1 hb with rfl | hb
      · exact absurd hlt (Nat.lt_irrefl b)
      · exact absurd hlt (Nat.lt_asymm (hincreasing.2.1.1 b hb))
  obtain ⟨x, hx⟩ := Option.isSome_iff_exists.1 (hsettled b hbdone)
  rw [hm b x hx, hm' b x hx]

theorem candidate_halves {a : Atom} (ha : a < m.values.size) (hnone : m.value a = none)
    (v : Atom → Bool) : P.Candidate m v ↔
      P.Candidate (m.assign a false) v ∨ P.Candidate (m.assign a true) v := by
  rw [Candidate.assign ha hnone, Candidate.assign ha hnone, ← and_or_left]
  cases v a <;> simp

/-- Without an objective any model will do. -/
theorem Improves.covers {S T : (Atom → Bool) → Prop} {best : Best} (h : P.Improves S none best)
    (hempty : P.objective = []) (hsome : best.isSome) : P.Covers T best := by
  cases h with
  | stays => cases hsome
  | found m =>
    intro v _
    refine ⟨m, _, rfl, ?_⟩
    rw [hempty]
    exact Int.le_refl 0

/-- The search looks at each model that agrees with the assignment, those with the lower
atoms false first. -/
theorem descend_improves {rest : List Atom} {best best' : Best} (hready : P.Ready rest m)
    (hopen : P.Open m best) (h : P.descend rest m best = .ok best') :
    P.Improves (P.Candidate m) best best' := by
  induction rest generalizing m best best' with
  | nil =>
    unfold descend at h
    rw [Checked.bind_eq_ok] at h
    obtain ⟨c, hc, h⟩ := h
    cases h
    exact improves_settled hready hopen hc
  | cons a rest ih =>
    unfold descend at h
    split at h
    · next b hb =>
      exact ih (hready.settle (.refl m) hready.quiet (by rw [hb]; rfl)) hopen h
    · next hnone =>
      have ha := hready.listed.lt a hready.mem
      have henter : ∀ b best best', (P.objective = [] → best = none) →
          P.enter (P.descend rest) (m.assign a b) best = .ok best' →
          P.Improves (P.Candidate (m.assign a b)) best best' := by
        intro b best best' hfresh henter
        apply enter_improves _ hfresh _ henter
        · rw [size_assign]
          exact hready.listed
        · intro m' hm' hopen' best'' hnext
          exact ih (hready.assign hnone hm') hopen' hnext
      have hfirst : ∀ v w, P.Candidate (m.assign a false) v → P.Candidate (m.assign a true) w →
          Precedes P.atoms v w := by
        intro v w hv hw
        rw [Candidate.assign ha hnone] at hv hw
        exact hready.precedes hv.1.2 hw.1.2 hv.2 hw.2
      rw [Checked.bind_eq_ok] at h
      obtain ⟨best₁, hbest₁, h⟩ := h
      have hfalse := henter false best best₁ hopen.fresh hbest₁
      apply Improves.congr _ (candidate_halves ha hnone)
      apply Improves.union hfalse _ hfirst
      split at h
      · next hearly =>
        cases h
        rw [Bool.and_eq_true, List.isEmpty_iff] at hearly
        rw [hopen.fresh hearly.2] at hfalse
        exact .stays (hfalse.covers hearly.2 hearly.1)
      · next hlate =>
        apply henter true best₁ best' _ h
        intro hempty
        rw [hempty] at hlate
        simpa using hlate

theorem enter_eq_error {next : Assignment → Best → Checked Best} {best : Best} {e : Fault}
    (hnext : ∀ m, next m best = .error e → P.Spills e) (h : P.enter next m best = .error e) :
    P.Spills e := by
  unfold enter at h
  split at h
  · cases h
  · exact hnext _ h
  · rw [Checked.bind_eq_error] at h
    rcases h with h | ⟨c, -, h⟩
    · exact leastCost_eq_error h
    · split at h
      · cases h
      · exact hnext _ h

/-- The search fails only at a sum of weights that leaves its word. -/
theorem descend_eq_error {rest : List Atom} {best : Best} {e : Fault}
    (h : P.descend rest m best = .error e) : P.Spills e := by
  induction rest generalizing m best with
  | nil =>
    unfold descend at h
    rw [Checked.bind_eq_error] at h
    rcases h with h | ⟨c, -, h⟩
    · exact cost_eq_error h
    · cases h
  | cons a rest ih =>
    unfold descend at h
    split at h
    · exact ih h
    · rw [Checked.bind_eq_error] at h
      rcases h with h | ⟨best₁, -, h⟩
      · exact enter_eq_error (fun m hm => ih hm) h
      · split at h
        · cases h
        · exact enter_eq_error (fun m hm => ih hm) h

/-- The best model is preferred to every other one, and there is none only if nothing
satisfies the problem. -/
theorem best_spec {n : Nat} {best : Best} (hP : P.Listed n) (h : P.best n = .ok best) :
    (best = none → ∀ v, ¬ P.Satisfied v) ∧
      ∀ m c, best = some (m, c) → P.Satisfied m.truth ∧ ∀ w, P.Satisfied w → P.Prefers m.truth w := by
  have hlisted : P.Listed (allOpen n).values.size := by simpa [allOpen] using hP
  unfold Problem.best at h
  split at h
  · next hempty =>
    cases h
    obtain ⟨ls, hls, hnil⟩ := List.any_eq_true.1 hempty
    constructor
    · intro _ v hv
      obtain ⟨l, hl, -⟩ := hv.clauses ls hls
      rw [List.isEmpty_iff.1 hnil] at hl
      cases hl
    · intro m c hnone
      cases hnone
  · have himproves : P.Improves (P.Candidate (allOpen n)) none best := by
      apply enter_improves hlisted (fun _ => rfl) _ h
      intro m' hm' hopen best' hnext
      obtain ⟨hgrows, -, hquiet⟩ := propagate_eq_some hlisted hm'
      have hnothing : ∀ a ∈ ([] : List Atom), (m'.value a).isSome := fun a ha =>
        absurd ha List.not_mem_nil
      exact descend_improves ⟨hgrows.size ▸ hlisted, hquiet, [], rfl, hnothing⟩ hopen hnext
    cases himproves with
    | stays hnone =>
      constructor
      · intro _ v hv
        obtain ⟨b, least, hb, -⟩ := hnone v ⟨hv, agrees_allOpen n v⟩
        cases hb
      · intro m c hm
        cases hm
    | found m hm hbest hpref =>
      constructor
      · intro hnone
        cases hnone
      · intro m' c hm'
        cases hm'
        exact ⟨hm.1, fun w hw => hpref w ⟨hw, agrees_allOpen n w⟩⟩

/-! ### Formulas -/

theorem mentions_ofFormula {F : Formula} {l : Literal} :
    (ofFormula F).Mentions l ↔ l ∈ literals F := by
  rw [Formula.mem_literals, Mentions]
  simp [ofFormula]

theorem satisfied_ofFormula {F : Formula} : (ofFormula F).Satisfied v ↔ F.Holds v := by
  constructor
  · intro h
    exact ⟨fun c hc => h.clauses _ (List.mem_map_of_mem hc), h.window⟩
  · intro h
    refine ⟨?_, h.window⟩
    intro ls hls
    obtain ⟨c, hc, rfl⟩ := List.mem_map.1 hls
    exact h.clauses c hc

theorem listed_ofFormula {F : Formula} {n : Nat} (hF : ∀ l ∈ literals F, l.atom < n) :
    (ofFormula F).Listed n where
  mem := fun l hl => Exhaustive.atom_mem_atoms (mentions_ofFormula.1 hl)
  lt := by
    intro a ha
    obtain ⟨l, hl, rfl⟩ := List.mem_map.1 (IndexSet.mem_ofList.1 (IndexSet.mem_toList'.1 ha))
    exact hF l hl
  increasing := IndexSet.increasing_toList _

end Problem

namespace Dpll

open Problem

theorem map_some_filterMap {α β : Type} {f : α → Option β} {xs : List α}
    (h : ∀ x ∈ xs, (f x).isSome) : (xs.filterMap f).map some = xs.map f := by
  induction xs with
  | nil => rfl
  | cons x xs ih =>
    obtain ⟨hx, hxs⟩ := List.forall_mem_cons.1 h
    obtain ⟨y, hy⟩ := Option.isSome_iff_exists.1 hx
    rw [List.filterMap_cons_some hy, List.map_cons, List.map_cons, hy, ih hxs]

/-- The one right answer about a formula. There is no model only if no valuation satisfies
the formula. Otherwise the model is that of a valuation of least cost, and of those of the
least one, atom by atom from the lowest: the constraints of its true atoms, in increasing
order of atom. -/
def Optimal (D : Dpll) (F : Formula) (r : Option Model) : Prop :=
  (r = none ↔ ∀ v, ¬ F.Holds v) ∧
    ∀ m, r = some m → ∃ v, F.Holds v ∧
      (∀ w, F.Holds w → costOf F.objective v ≤ costOf F.objective w) ∧
      (∀ w, F.Holds w → costOf F.objective w = costOf F.objective v →
        (∀ a ∈ Exhaustive.atoms F, v a = w a) ∨ Precedes (Exhaustive.atoms F) v w) ∧
      m.map some = ((Exhaustive.atoms F).filter v).map fun a => (D.atoms[a]?).map (·.1)

theorem optimal_of_best {D : Dpll} {F : Formula} {best : Best}
    (hF : ∀ l ∈ Problem.literals F, l.atom < D.atoms.size)
    (h : (ofFormula F).best D.atoms.size = .ok best) :
    D.Optimal F (best.map fun b => D.model (ofFormula F) b.1) := by
  have hlisted := listed_ofFormula hF
  obtain ⟨hnone, hsome⟩ := best_spec hlisted h
  cases best with
  | none =>
    have hunsat : ∀ v, ¬ F.Holds v := fun v hv => hnone rfl v (satisfied_ofFormula.2 hv)
    exact ⟨iff_of_true rfl hunsat, nofun⟩
  | some b =>
    obtain ⟨m, c⟩ := b
    obtain ⟨hsat, hpref⟩ := hsome m c rfl
    have hholds := satisfied_ofFormula.1 hsat
    refine ⟨iff_of_false nofun fun hunsat => hunsat _ hholds, ?_⟩
    intro r hr
    cases hr
    refine ⟨m.truth, hholds, ?_, ?_, ?_⟩
    · intro w hw
      exact (hpref w (satisfied_ofFormula.2 hw)).le
    · intro w hw hcost
      rcases hpref w (satisfied_ofFormula.2 hw) with hlt | ⟨-, hfirst⟩
      · exact absurd hlt (Int.not_lt.2 (Int.le_of_eq hcost))
      · exact hfirst
    · -- Every atom of the formula was allocated, so each true one has a constraint.
      apply map_some_filterMap
      intro a ha
      rw [Option.isSome_map, Array.getElem?_eq_getElem (hlisted.lt a (List.mem_filter.1 ha).1)]
      rfl

/-- What keeps the solver from an answer: an atom that was never allocated, a limit that has
passed, or a sum of weights that leaves its word. -/
inductive Hinders (D : Dpll) (F : Formula) : Failure → Prop
  | unknown {l : Literal} : l ∈ Problem.literals F → D.atoms.size ≤ l.atom →
      Hinders D F (.error (.unknownAtom l.atom))
  | late : D.limit.isPassed = true → Hinders D F (.error .backendTimeout)
  | spills : ¬ SumsFit F.objective → Hinders D F (.fault .overflow)

/-- Whenever the solver answers it gives the right answer, and it keeps its atoms. -/
theorem solve_spec (D : Dpll) (F : Formula) :
    (solve F).Leads D (fun r D' => D.Optimal F r ∧ D'.atoms = D.atoms)
      (fun e D' => D.Hinders F e ∧ D'.atoms = D.atoms) := by
  unfold solve
  simp only [Action.leads_bind, Action.leads_modify, Action.leads_get]
  cases hknown : ({ D with timedOut := false } : Dpll).unknown? F with
  | some l =>
    have hl : D.atoms.size ≤ l.atom := by simpa using List.find?_some hknown
    exact ⟨.unknown (List.mem_of_find?_eq_some hknown) hl, rfl⟩
  | none =>
    have hF : ∀ l ∈ literals F, l.atom < D.atoms.size := by
      intro l hl
      simpa using List.find?_eq_none.1 hknown l hl
    dsimp only
    split
    · next hempty =>
      have hbest : (ofFormula F).best D.atoms.size = .ok none := if_pos hempty
      exact ⟨optimal_of_best hF hbest, rfl⟩
    · next hclauses =>
      split
      · next hpassed => exact ⟨.late hpassed, rfl⟩
      · rw [Action.leads_bind, Action.leads_ofChecked]
        constructor
        · intro best hbest
          exact ⟨optimal_of_best hF hbest, rfl⟩
        · intro e he
          have hentered : (ofFormula F).best D.atoms.size =
              (ofFormula F).enter ((ofFormula F).descend (ofFormula F).atoms)
                (.allOpen D.atoms.size) none := if_neg hclauses
          rw [hentered] at he
          obtain ⟨rfl, hspills⟩ := enter_eq_error (fun m hm => descend_eq_error hm) he
          exact ⟨.spills hspills, rfl⟩

/-- Whatever the solver was used for before, and whatever the clauses, the window and the
objective, the search gives the right answer about a formula over allocated atoms. It fails
only if some sum of weights leaves its word. -/
theorem solve_optimal {D : Dpll} {F : Formula}
    (hF : ∀ l ∈ Problem.literals F, l.atom < D.atoms.size) (hD : D.limit = .unbounded) :
    (solve F).Leads D (fun r _ => D.Optimal F r)
      (fun e _ => e = .fault .overflow ∧ ¬ SumsFit F.objective) := by
  have hknown : ({ D with timedOut := false } : Dpll).unknown? F = none := by
    rw [unknown?, List.find?_eq_none]
    intro l hl
    simpa using hF l hl
  have hpassed : D.limit.isPassed = false := by rw [hD]; rfl
  unfold solve
  simp only [Action.leads_bind, Action.leads_modify, Action.leads_get, hknown, hpassed]
  split
  · next hempty =>
    have hbest : (ofFormula F).best D.atoms.size = .ok none := if_pos hempty
    exact optimal_of_best hF hbest
  · next hclauses =>
    rw [if_neg Bool.false_ne_true, Action.leads_bind, Action.leads_ofChecked]
    constructor
    · intro best hbest
      exact optimal_of_best hF hbest
    · intro e he
      have hentered : (ofFormula F).best D.atoms.size =
          (ofFormula F).enter ((ofFormula F).descend (ofFormula F).atoms)
            (.allOpen D.atoms.size) none := if_neg hclauses
      rw [hentered] at he
      obtain ⟨rfl, hspills⟩ := enter_eq_error (fun m hm => descend_eq_error hm) he
      exact ⟨rfl, hspills⟩

/-! ### An instance -/

/-- A solver with three atoms. -/
def three : Dpll := { atoms := #[(4, "a"), (9, "b"), (5, "c")] }

/-- The first or the second atom is true. A window holds the first atom with its complement
and the third one. The second atom costs two, and the third one saves three. -/
def chosen : Formula :=
  { (Formula.empty.addClause (.ofList [⟨0, 4, false⟩, ⟨1, 9, false⟩])) with
    window := some ⟨.ofList [⟨0, 4, false⟩, ⟨0, 4, true⟩, ⟨2, 5, false⟩], 1, 2⟩
    terms := [(⟨1, 9, false⟩, 2), (⟨2, 5, false⟩, -3)] }

/-- The first and the third atom are true in the best model. -/
theorem solve_optimal_chosen :
    (∀ l ∈ Problem.literals chosen, l.atom < three.atoms.size) ∧ three.limit = .unbounded ∧
      ((solve chosen).outcome three).1 = .ok (some [4, 5]) ∧
      three.Optimal chosen (some [4, 5]) := by
  have hF : ∀ l ∈ Problem.literals chosen, l.atom < three.atoms.size := by decide +kernel
  have hrun : ((solve chosen).outcome three).1 = .ok (some [4, 5]) := by decide +kernel
  refine ⟨hF, rfl, hrun, ?_⟩
  exact (solve_optimal hF rfl).of_ok (Prod.ext hrun rfl)

end Dpll

end Acquisition.Sat
