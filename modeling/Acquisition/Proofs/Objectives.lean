import Acquisition.Proofs.Optimality
import Mathlib.Algebra.GroupWithZero.Nat

/-!
# Objectives ask for the heaviest literals

Each clause whose literals are to weigh as much as possible adds a term for each of them, so
the cost of a valuation is what its literals weigh, negated, and a model of least cost is a
heaviest one.

A formula in which every literal weighs one has no objective, though. Nothing is then asked
of the model, and the first one is found, be it heavy or light. That is right only where all
models have as many of the literals.
-/
namespace Acquisition

open Checked

attribute [local instance (high)] instPowNat

/-- What the constraint of a literal weighs, if that is told. -/
def Literal.weight (A : Arena) (l : Literal) : Nat :=
  match A.weight l.constraint with
  | .ok w => w
  | .error _ => 0

/-- The negation of a word that is signed as it stands. -/
theorem Checked.negateWord_eq {w : Nat} (h : w < 2 ^ (63 : Nat)) :
    negateWord w = .ok (-(w : Int)) := by
  have hbmod : Int.bmod w (2 ^ (64 : Nat)) = w := by
    apply Int.bmod_eq_of_le
    · omega
    · omega
  have hsigned : isSigned (-(w : Int)) = true := by
    simp only [isSigned, Bool.and_eq_true, decide_eq_true_eq]
    omega
  rw [negateWord, hbmod, signed, if_pos hsigned]

namespace Formula

variable {A : Arena} {F F' : Formula}

/-- A formula that was put together from stores, windows and clauses to weigh. -/
inductive Made (A : Arena) : Formula → Prop
  | empty : Made A .empty
  | store {F : Formula} (S : ClauseStore) : Made A F → Made A (F.addStore S)
  | window {F : Formula} (w : Window) : Made A F → Made A (F.setWindow w)
  | weighed {F F' : Formula} {c : Clause} : Made A F → F.addWeighed A c = .ok F' → Made A F'

/-- The literals that are to weigh as much as possible, once for each clause they came with. -/
def weighedLiterals (F : Formula) : List Literal := F.weighed.flatMap (·.literals)

/-- What the literals that hold weigh together. -/
def worth (A : Arena) (F : Formula) (v : Atom → Bool) : Nat :=
  ((F.weighedLiterals.filter fun l => decide (l.Holds v)).map (·.weight A)).sum

/-- Every weight is a signed word. -/
def Light (A : Arena) (F : Formula) : Prop := ∀ l ∈ F.weighedLiterals, l.weight A < 2 ^ (63 : Nat)

/-- Every weight is one. -/
def Even (A : Arena) (F : Formula) : Prop := ∀ l ∈ F.weighedLiterals, l.weight A = 1

theorem term_eq {l : Literal} {t : Literal × Int} (h : term A l = .ok t)
    (hw : l.weight A < 2 ^ (63 : Nat)) : t = (l, -(l.weight A : Int)) := by
  rw [term, bind_eq_ok] at h
  obtain ⟨w, hA, h⟩ := h
  have hweight : l.weight A = w := by rw [Literal.weight, hA]
  rw [hweight] at hw ⊢
  rw [negateWord_eq hw] at h
  exact (Except.ok.inj h).symm

theorem mapM_term_eq {ls : List Literal} {ts : List (Literal × Int)}
    (h : ls.mapM (term A) = .ok ts) (hw : ∀ l ∈ ls, l.weight A < 2 ^ (63 : Nat)) :
    ts = ls.map fun l => (l, -(l.weight A : Int)) := by
  rw [mapM_eq_ok] at h
  induction h with
  | nil => rfl
  | cons ht _ ih =>
    obtain ⟨hl, hls⟩ := List.forall_mem_cons.1 hw
    rw [List.map_cons, ← ih hls, term_eq ht hl]

/-- A clause to weigh adds its literals to those to weigh, and nothing else. -/
theorem addWeighed_extends {c : Clause} (h : F.addWeighed A c = .ok F') :
    F'.weighedLiterals = F.weighedLiterals ++ c.literals ∧
      ∃ ts, c.literals.mapM (term A) = .ok ts ∧ F'.terms = F.terms ++ ts := by
  rw [addWeighed, bind_eq_ok] at h
  obtain ⟨ts, hts, h⟩ := h
  cases h
  refine ⟨?_, ts, hts, rfl⟩
  simp [weighedLiterals]

theorem addWeighed_of_terms {c : Clause} {ts : List (Literal × Int)}
    (h : c.literals.mapM (term A) = .ok ts) :
    F.addWeighed A c = .ok { F with terms := F.terms ++ ts, weighed := F.weighed ++ [c] } := by
  rw [addWeighed, h]
  rfl

/-- The terms are those of the literals to weigh, each with its weight negated. -/
theorem Made.terms_eq (h : F.Made A) (hw : F.Light A) :
    F.terms = F.weighedLiterals.map fun l => (l, -(l.weight A : Int)) := by
  induction h with
  | empty => rfl
  | store _ _ ih => exact ih hw
  | window _ _ ih => exact ih hw
  | weighed _ hadd ih =>
    obtain ⟨hliterals, ts, hts, hterms⟩ := addWeighed_extends hadd
    rw [Light, hliterals, List.forall_mem_append] at hw
    rw [hterms, ih hw.1, mapM_term_eq hts hw.2, hliterals, List.map_append]

theorem Made.objective_eq (h : F.Made A) (hw : F.Light A) :
    F.Even A ∧ F.objective = [] ∨ ¬ F.Even A ∧ F.objective = F.terms := by
  have hone : F.terms.all (·.2 == -1) = true ↔ F.Even A := by
    rw [h.terms_eq hw, List.all_eq_true, List.forall_mem_map]
    refine forall₂_congr fun l _ => ?_
    rw [beq_iff_eq]
    omega
  unfold objective
  split
  · next hall => exact .inl ⟨hone.1 hall, rfl⟩
  · next hall => exact .inr ⟨mt hone.2 hall, rfl⟩

/-- What is spared in cost is gained in weight. -/
theorem Made.costOf_terms (h : F.Made A) (hw : F.Light A) (v : Atom → Bool) :
    Sat.costOf F.terms v = -(F.worth A v : Int) := by
  rw [h.terms_eq hw, worth]
  generalize F.weighedLiterals = ls
  induction ls with
  | nil => rfl
  | cons l ls ih =>
    rw [List.map_cons, Sat.costOf_cons, ih, List.filter_cons]
    by_cases hl : l.Holds v
    · simp only [hl, if_true, decide_true, List.map_cons, List.sum_cons]
      push_cast
      omega
    · simp [hl]

end Formula

namespace Sat.Dpll

open Problem

variable {A : Arena} {F : Formula} {D : Dpll}

/-- The model is that of a valuation: the constraints of its true atoms, in increasing order
of atom. -/
def Reads (D : Dpll) (F : Formula) (m : Model) (v : Atom → Bool) : Prop :=
  m.map some = ((Exhaustive.atoms F).filter v).map fun a => (D.atoms[a]?).map (·.1)

/-- Whatever the clauses, the window and the clauses to weigh, the model that is found is a
heaviest one, unless every weight is one and models differ in how many of the literals hold.
If every weight is one, the model is the first one. -/
theorem solve_heaviest (hF : F.Made A) (hlight : F.Light A) :
    (solve F).Leads D
      (fun r _ => ∀ m, r = some m → ∃ v, F.Holds v ∧ D.Reads F m v ∧
        ((F.Even A → ∀ w w', F.Holds w → F.Holds w' → F.worth A w = F.worth A w') →
          ∀ w, F.Holds w → F.worth A w ≤ F.worth A v) ∧
        (F.Even A → ∀ w, F.Holds w →
          (∀ a ∈ Exhaustive.atoms F, v a = w a) ∨ Precedes (Exhaustive.atoms F) v w))
      (fun e _ => D.Hinders F e) := by
  apply (solve_spec D F).mono _ fun _ _ h => h.1
  rintro r - ⟨⟨-, hsome⟩, -⟩ m hm
  obtain ⟨v, hv, hleast, hfirst, hreads⟩ := hsome m hm
  refine ⟨v, hv, hreads, ?_, ?_⟩
  · intro hsame w hw
    rcases hF.objective_eq hlight with ⟨heven, -⟩ | ⟨-, hobjective⟩
    · exact (hsame heven w v hw hv).le
    · have hle := hleast w hw
      rw [hobjective, hF.costOf_terms hlight, hF.costOf_terms hlight] at hle
      omega
  · intro heven w hw
    rcases hF.objective_eq hlight with ⟨-, hobjective⟩ | ⟨hnot, -⟩
    · apply hfirst w hw
      rw [hobjective]
      rfl
    · exact absurd heven hnot

/-- The sample with one more constraint, which weighs five. -/
def scales : Arena := (Exhaustive.sample.add (.unary 0 .eq 1 5)).2

/-- The solver with an atom for each of two constraints. -/
def pair (c d : ConstraintId) : Dpll := { atoms := #[(c, "first"), (d, "second")] }

/-- The clause of the two atoms. -/
def either (c d : ConstraintId) : Clause := .ofList [⟨0, c, false⟩, ⟨1, d, false⟩]

/-- One of the two literals holds, and they weigh one and five. -/
def uneven : Formula :=
  { Formula.empty.setWindow ⟨either 0 6, 1, 1⟩ with
    weighed := [either 0 6]
    terms := [(⟨0, 0, false⟩, -1), (⟨1, 6, false⟩, -5)] }

theorem made_uneven : uneven.Made scales := by
  have hterms : (either 0 6).literals.mapM (Formula.term scales) =
      .ok [(⟨0, 0, false⟩, -1), (⟨1, 6, false⟩, -5)] := by decide +kernel
  exact .weighed (.window ⟨either 0 6, 1, 1⟩ .empty) (Formula.addWeighed_of_terms hterms)

/-- The heavier literal is made to hold. -/
theorem solve_heaviest_uneven :
    uneven.Made scales ∧ uneven.Light scales ∧
      ((solve uneven).outcome (pair 0 6)).1 = .ok (some [6]) ∧
      ∃ v, uneven.Holds v ∧ (pair 0 6).Reads uneven [6] v ∧
        ∀ w, uneven.Holds w → uneven.worth scales w ≤ uneven.worth scales v := by
  have hlight : uneven.Light scales := by
    unfold Formula.Light
    decide +kernel
  have heven : ¬ uneven.Even scales := by
    unfold Formula.Even
    decide +kernel
  have hrun : ((solve uneven).outcome (pair 0 6)).1 = .ok (some [6]) := by decide +kernel
  obtain ⟨v, hv, hreads, hmost, -⟩ :=
    (solve_heaviest made_uneven hlight).of_ok (Prod.ext hrun rfl) [6] rfl
  exact ⟨made_uneven, hlight, hrun, v, hv, hreads, hmost fun h => absurd h heven⟩

/-- At least one of the two literals holds, and each weighs one. -/
def even : Formula :=
  { Formula.empty.addClause (either 0 2) with
    weighed := [either 0 2]
    terms := [(⟨0, 0, false⟩, -1), (⟨1, 2, false⟩, -1)] }

/-- Only the second literal is made to hold, though both of them could. -/
theorem solve_even_lighter :
    even.Made Exhaustive.sample ∧ even.Light Exhaustive.sample ∧ SumsFit even.objective ∧
      ((solve even).outcome (pair 0 2)).1 = .ok (some [2]) ∧
      ∀ v, even.Holds v → (pair 0 2).Reads even [2] v →
        ∃ w, even.Holds w ∧ even.worth Exhaustive.sample v < even.worth Exhaustive.sample w := by
  have hterms : (either 0 2).literals.mapM (Formula.term Exhaustive.sample) =
      .ok [(⟨0, 0, false⟩, -1), (⟨1, 2, false⟩, -1)] := by decide +kernel
  refine ⟨.weighed (.store (ClauseStore.empty.adding (either 0 2)) .empty)
    (Formula.addWeighed_of_terms hterms), ?_, ?_, by decide +kernel, ?_⟩
  · unfold Formula.Light
    decide +kernel
  · intro ws hws
    obtain rfl : ws = [] := List.sublist_nil.1 hws
    decide
  · intro v _ hreads
    refine ⟨fun _ => true, Exhaustive.satisfies_iff.1 (by decide +kernel), ?_⟩
    have hfirst : v 0 = false := by
      have hatoms : Exhaustive.atoms even = [0, 1] := by decide +kernel
      rw [Reads, hatoms] at hreads
      cases hv : v 0 with
      | false => rfl
      | true => simp [hv, pair] at hreads
    have hworth : even.worth Exhaustive.sample v ≤ 1 := by
      have hliterals : even.weighedLiterals = [⟨0, 0, false⟩, ⟨1, 2, false⟩] := by decide +kernel
      have hweight : Literal.weight Exhaustive.sample ⟨1, 2, false⟩ = 1 := by decide +kernel
      rw [Formula.worth, hliterals]
      cases hv : v 1 with
      | false => simp [Literal.Holds, hfirst, hv]
      | true => simp [Literal.Holds, hfirst, hv, hweight]
    have hboth : even.worth Exhaustive.sample (fun _ => true) = 2 := by decide +kernel
    omega

end Sat.Dpll

end Acquisition
