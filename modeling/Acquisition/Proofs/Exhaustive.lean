import Acquisition.Domain
import Acquisition.Proofs.Lookup
import Acquisition.Proofs.Subsets

/-!
# Backends that try everything

The contracts can be met: a backend that tries all truth values of the atoms of a
formula, or all values of the variables of a network, meets them and never fails.
Atoms are tried in increasing order, false before true, and values in increasing
order too.

A state of the world lists the constraints to which atoms were handed out.
-/
namespace Acquisition.Exhaustive

open IndexSet

/-- The constraints of the atoms handed out so far, by atom. -/
abbrev World := List ConstraintId

def issued : Issued World := fun s a c => s[a]? = some c

/-- The ways to choose the atoms that are true. -/
def truths : List Atom → List (List Atom)
  | [] => [[]]
  | a :: as => truths as ++ (truths as).map (a :: ·)

theorem filter_mem_truths (v : Atom → Bool) (as : List Atom) : as.filter v ∈ truths as := by
  induction as with
  | nil => simp [truths]
  | cons a as ih =>
    cases ha : v a with
    | false => simpa [truths, ha] using .inl ih
    | true => simpa [truths, ha] using .inr ih

/-- The valuation under which the listed atoms are true. -/
def valuation (as : List Atom) : Atom → Bool := fun a => as.contains a

instance (v : Atom → Bool) (c : Clause) : Decidable (c.Holds v) :=
  inferInstanceAs (Decidable (∃ l ∈ c.literals, l.Holds v))

instance (v : Atom → Bool) (w : Window) : Decidable (w.Holds v) :=
  inferInstanceAs (Decidable (_ ∧ _))

/-- Whether a formula is true under a valuation. -/
def satisfies (v : Atom → Bool) (F : Formula) : Bool :=
  F.clauses.all (fun c => decide (c.Holds v)) && F.window.all fun w => decide (w.Holds v)

theorem satisfies_iff {v : Atom → Bool} {F : Formula} : satisfies v F = true ↔ F.Holds v := by
  rw [satisfies, Bool.and_eq_true, List.all_eq_true, Option.all_eq_true]
  simp only [decide_eq_true_eq]
  exact ⟨fun h => ⟨h.1, h.2⟩, fun h => ⟨h.clauses, h.window⟩⟩

/-- The truth of a formula hangs on the atoms that it mentions. -/
theorem holds_congr {v w : Atom → Bool} {F : Formula}
    (h : ∀ l ∈ Sat.Problem.literals F, v l.atom = w l.atom) (hv : F.Holds v) : F.Holds w where
  clauses := fun c hc => by
    obtain ⟨l, hl, hlv⟩ := hv.clauses c hc
    refine ⟨l, hl, ?_⟩
    rwa [Literal.Holds, ← h l (Formula.mem_literals.2 (.inl ⟨c, hc, hl⟩))]
  window := fun x hx => by
    have hcount : x.clause.literals.countP (fun l => decide (l.Holds v)) =
        x.clause.literals.countP fun l => decide (l.Holds w) :=
      List.countP_congr fun l hl => by
        rw [decide_eq_true_iff, decide_eq_true_iff, Literal.Holds, Literal.Holds,
          h l (Formula.mem_literals.2 (.inr (.inl ⟨x, hx, hl⟩)))]
    have := hv.window x hx
    rwa [Window.Holds, hcount] at this

/-- The atoms of a formula in increasing order. -/
def atoms (F : Formula) : List Atom :=
  (IndexSet.ofList ((Sat.Problem.literals F).map (·.atom))).toList

theorem atom_mem_atoms {F : Formula} {l : Literal} (h : l ∈ Sat.Problem.literals F) :
    l.atom ∈ atoms F := by
  rw [atoms, mem_toList', mem_ofList]
  exact List.mem_map_of_mem h

/-- The constraints of the mentioned atoms that are true. -/
def model (F : Formula) (as : List Atom) : Model :=
  ((Sat.Problem.literals F).filter fun l => valuation as l.atom).map (·.constraint)

def solve (F : Formula) : Option Model :=
  ((truths (atoms F)).find? fun as => satisfies (valuation as) F).map (model F)

theorem answered_solve (F : Formula) : F.Answered (solve F) := by
  rw [solve]
  cases hf : (truths (atoms F)).find? fun as => satisfies (valuation as) F with
  | some as =>
    refine ⟨valuation as, satisfies_iff.1 (List.find?_some (p := fun as => satisfies _ F) hf),
      fun c => ?_⟩
    rw [model, List.mem_map]
    simp only [List.mem_filter]
    grind
  | none =>
    intro v hv
    refine List.find?_eq_none.1 hf _ (filter_mem_truths v (atoms F)) (satisfies_iff.2 ?_)
    refine holds_congr (fun l hl => ?_) hv
    have hl' := atom_mem_atoms hl
    cases hvl : v l.atom <;> simp [valuation, hvl, hl']

/-- The propositional backend that tries all truth values. -/
def sat : SatBackend World where
  allocate := fun c _ => do
    let s ← get
    set (s ++ [c])
    return { atom := s.length, constraint := c }
  solve := fun F => pure (solve F)
  setLimit := fun _ => pure ()
  timedOut := fun _ => false

theorem sat_lawful (Err : Failure → World → Prop) : sat.Lawful issued Err where
  allocate := fun c _ s => by
    refine ⟨fun a d h => ?_, rfl, rfl, ?_, fun a d h => ?_⟩
    · have hlt := (List.getElem?_eq_some_iff.1 h).1
      exact (List.getElem?_append_left hlt).trans h
    · exact (List.getElem?_append_right (Nat.le_refl _)).trans (by simp)
    · have hlt := (List.getElem?_eq_some_iff.1 h).1
      exact Nat.ne_of_lt hlt
  solve := fun F s _ => ⟨.refl _ s, answered_solve F⟩
  setLimit := fun _ s => .refl _ s

end Exhaustive

/-- The domain lets a variable take a value. -/
def Domain.Allows (D : Domain) : Ranges := fun v x =>
  ∃ i, D.interval? v = some i ∧ i.low ≤ x ∧ x ≤ i.high

instance (f : Valuation) (p : Predicate) : Decidable (p.Holds f) :=
  match p with
  | .unary .. => inferInstanceAs (Decidable (_ = true))
  | .binary .. => inferInstanceAs (Decidable (_ = true))
  | .sum .. => inferInstanceAs (Decidable (_ = true))

namespace Term

mutual

def decideHolds (f : Valuation) : (t : Term) → Decidable (t.Holds f)
  | atomic p => inferInstanceAs (Decidable (p.Holds f))
  | any ts => decideSome f ts
  | all ts => decideEach f ts

def decideSome (f : Valuation) : (ts : List Term) → Decidable (SomeHolds f ts)
  | [] => inferInstanceAs (Decidable False)
  | t :: ts => @instDecidableOr _ _ (t.decideHolds f) (decideSome f ts)

def decideEach (f : Valuation) : (ts : List Term) → Decidable (EachHolds f ts)
  | [] => inferInstanceAs (Decidable True)
  | t :: ts => @instDecidableAnd _ _ (t.decideHolds f) (decideEach f ts)

end

instance (f : Valuation) (t : Term) : Decidable (t.Holds f) := t.decideHolds f

end Term

instance (A : Arena) (f : Valuation) (c : ConstraintId) : Decidable (A.Holds f c) :=
  match h : A.term c with
  | .ok t => decidable_of_iff (t.Holds f) (by simp [Arena.Holds, h])
  | .error _ => .isFalse (by simp [Arena.Holds, h])

instance (A : Arena) (f : Valuation) (N : Network) : Decidable (N.Holds A f) :=
  decidable_of_iff (∀ c ∈ N.constraints.toList, A.Holds f c) (by simp [Network.Holds])

namespace Exhaustive

open IndexSet

variable (D : Domain)

/-- The values that a variable may take. -/
def values (v : Var) : List Value := ((D.interval? v).map (·.values)).getD []

theorem mem_values {v : Var} {x : Value} : x ∈ values D v ↔ D.Allows v x := by
  rw [values, Domain.Allows]
  cases D.interval? v <;> simp [Interval.mem_values]

instance (v : Var) (x : Value) : Decidable (D.Allows v x) := decidable_of_iff _ (mem_values D)

instance (f : Valuation) (s : IndexSet) : Decidable (f.Within D.Allows s) :=
  inferInstanceAs (Decidable (∀ v ∈ s, D.Allows v (f v)))

/-- The ways to give values to some variables. -/
def assignments : List Var → List (List (Var × Value))
  | [] => [[]]
  | v :: vs => (values D v).flatMap fun x => (assignments vs).map ((v, x) :: ·)

theorem mem_assignments {vs : List Var} {ps : List (Var × Value)} (h : ps ∈ assignments D vs) :
    ps.map (·.1) = vs ∧ ∀ p ∈ ps, D.Allows p.1 p.2 := by
  induction vs generalizing ps with
  | nil =>
    rw [assignments, List.mem_singleton] at h
    subst h
    exact ⟨rfl, nofun⟩
  | cons v vs ih =>
    obtain ⟨x, hx, h⟩ := List.mem_flatMap.1 h
    obtain ⟨qs, hqs, rfl⟩ := List.mem_map.1 h
    obtain ⟨hfst, hall⟩ := ih hqs
    refine ⟨by rw [List.map_cons, hfst], fun p hp => ?_⟩
    rcases List.mem_cons.1 hp with rfl | hp
    · exact (mem_values D).1 hx
    · exact hall p hp

theorem map_mem_assignments {f : Valuation} {vs : List Var} (h : ∀ v ∈ vs, D.Allows v (f v)) :
    vs.map (fun v => (v, f v)) ∈ assignments D vs := by
  induction vs with
  | nil => simp [assignments]
  | cons v vs ih =>
    refine List.mem_flatMap.2 ⟨f v, (mem_values D).2 (h v List.mem_cons_self), ?_⟩
    exact List.mem_map_of_mem (ih fun w hw => h w (List.mem_cons_of_mem _ hw))

def witness (A : Arena) (N : Network) : Option Query :=
  ((assignments D N.scope.toList).map Query.ofPairs).find? fun q =>
    decide (N.Holds A q.valuation)

theorem answered_witness {A : Arena} {N : Network} (hN : N.Closed A) :
    N.Answered A D.Allows (witness D A N) := by
  cases hf : witness D A N with
  | some q =>
    have hq := List.mem_of_find?_eq_some hf
    obtain ⟨ps, hps, rfl⟩ := List.mem_map.1 hq
    obtain ⟨hfst, hall⟩ := mem_assignments D hps
    have hvalue : ∀ v ∈ N.scope, ∃ x, (Query.ofPairs ps).valueOf v = some x ∧ D.Allows v x := by
      intro v hv
      rw [← mem_toList', ← hfst] at hv
      have hsome : (ps.reverse.lookup v).isSome := by
        rw [List.lookup_isSome_iff]
        obtain ⟨p, hp, rfl⟩ := List.mem_map.1 hv
        exact ⟨p, List.mem_reverse.2 hp, by simp⟩
      obtain ⟨x, hx⟩ := Option.isSome_iff_exists.1 hsome
      refine ⟨x, (Query.valueOf_ofPairs ps v).trans hx, ?_⟩
      obtain ⟨l₁, l₂, hl, -⟩ := List.lookup_eq_some_iff.1 hx
      refine hall (v, x) (List.mem_reverse.1 ?_)
      rw [hl]
      simp
    refine ⟨fun v hv => ?_, fun v hv => ?_,
      of_decide_eq_true (List.find?_some (p := fun q : Query => decide (N.Holds A q.valuation)) hf),
      rfl⟩
    · obtain ⟨x, hx, -⟩ := hvalue v hv
      rw [Query.mem_scope, hx]
      rfl
    · obtain ⟨x, hx, hd⟩ := hvalue v hv
      rw [Query.valuation, hx]
      exact hd
  | none =>
    rintro ⟨f, hf', hold⟩
    have hmem := map_mem_assignments D fun v (hv : v ∈ N.scope.toList) => hf' v (mem_toList'.1 hv)
    refine List.find?_eq_none.1 hf _ (List.mem_map_of_mem hmem) (decide_eq_true fun c hc => ?_)
    refine (Arena.holds_congr fun v hv => ?_).1 (hold c hc)
    have hv' : v ∈ N.scope.toList.reverse := List.mem_reverse.2 (mem_toList'.2 ((hN c hc).2 v hv))
    rw [Query.valuation, Query.valueOf_ofPairs, ← List.map_reverse, List.lookup_graph f hv']
    rfl

/-- The constraint backend that tries all values. -/
def cp : CpBackend World where
  witness := fun A N => pure (witness D A N)
  setLimit := fun _ => pure ()
  timedOut := fun _ => false

theorem cp_lawful (Err : Failure → World → Prop) : (cp D).Lawful D.Allows Err where
  witness := fun _ _ _ _ hN => answered_witness D hN

theorem cp_keeps : (cp D).Keeps issued where
  witness := fun _ _ s => .refl _ s
  setLimit := fun _ s => .refl _ s

/-! ### A small instance -/

/-- Two variables, each of which is zero or one. -/
def bits : Domain := .ofList [⟨0, 1⟩, ⟨0, 1⟩]

/-- The first variable is zero, it is at most zero, and the second one is one. -/
def predicates : List Predicate :=
  [.unary 0 .eq 0 1, .unary 0 .le 0 1, .unary 1 .eq 1 1]

/-- The arena of these constraints. Their negations have the odd places. -/
def sample : Arena := predicates.foldl (fun A p => (A.add p).2) .empty

theorem built_sample : sample.Built := .add _ (.add _ (.add _ .empty))

/-- That the first variable is zero, and that it is not. -/
def clash : Network := ⟨.singleton 0, .ofList [0, 1]⟩

theorem closed_clash : clash.Closed sample := by
  have h : Network.ofList sample (.singleton 0) [0, 1] = .ok clash := by decide +kernel
  exact (Network.closed_ofScope _ _).addAll h

theorem closed_nothing (A : Arena) : Network.Closed A {} := fun c hc => absurd hc (mem_empty c)

theorem satisfiable_scope :
    (((Network.ofScope clash.scope).union {}).union {}).Satisfiable sample bits.Allows := by
  refine ⟨fun _ => 0, fun v hv => ?_, fun c hc => by simp [Network.union, Network.ofScope] at hc⟩
  have hv' : v = 0 := by simpa [Network.union, Network.ofScope, clash] using hv
  subst hv'
  exact ⟨⟨0, 1⟩, rfl, by decide, by decide⟩

/-- A constraint and its negation do not hold together. -/
theorem not_admits_clash (dom : Ranges) (N : Network) :
    ¬ N.Admits sample dom clash.constraints := by
  rintro ⟨f, -, -, h⟩
  have hreg : sample.Registered 0 := (closed_clash 0 (by simp [clash])).1
  have htwin : sample.Holds f (Arena.twin 0) := h 1 (by simp [clash])
  exact (built_sample.paired.holds_twin hreg f).1 htwin (h 0 (by simp [clash]))

/-- An atom for each of the two constraints. -/
def table : AtomTable := ⟨[(0, ⟨0, 0, false⟩), (1, ⟨1, 1, false⟩)]⟩

theorem assigns_table {b : IndexSet} (hb : b ⊆ clash.constraints) :
    table.Assigns issued [0, 1] b where
  literal := fun c hc => by
    have hc' : c = 0 ∨ c = 1 := by simpa [clash] using hb c hc
    rcases hc' with rfl | rfl
    · exact ⟨_, rfl, rfl, rfl, rfl⟩
    · exact ⟨_, rfl, rfl, rfl, rfl⟩
  apart := fun c hc d hd l m hl hm hatom => by
    have hc' : c = 0 ∨ c = 1 := by simpa [clash] using hb c hc
    have hd' : d = 0 ∨ d = 1 := by simpa [clash] using hb d hd
    rcases hc' with rfl | rfl <;> rcases hd' with rfl | rfl <;> cases hl <;> cases hm <;>
      simp at hatom ⊢

end Exhaustive

end Acquisition
