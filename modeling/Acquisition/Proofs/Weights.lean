import Acquisition.Propositional.Formula
import Acquisition.Proofs.Complements
import Acquisition.Proofs.Selection

/-!
# Weights

A weight is told for every constraint that was registered, unless a sum of weights leaves
its word. So weights keep a clause from being chosen, or a formula from being built, for
that reason only.
-/
namespace Acquisition

open Checked

theorem Checked.unsigned_error {n : Nat} {e : Fault} (h : unsigned n = .error e) :
    e = .overflow := by
  unfold unsigned at h
  split at h
  · cases h
  · exact (Except.error.inj h).symm

/-- A sum that leaves its word never comes back. -/
theorem Checked.unsigned_cases (n : Nat) :
    unsigned n = .ok n ∨ ∀ m, unsigned (n + m) = .error .overflow := by
  unfold unsigned
  split
  · exact .inl rfl
  · right
    intro m
    rw [if_neg (by omega)]

theorem Checked.signed_error {i : Int} {e : Fault} (h : signed i = .error e) :
    e = .overflow := by
  unfold signed at h
  split at h
  · cases h
  · exact (Except.error.inj h).symm

namespace Term

mutual

theorem weight_error (t : Term) {e : Fault} (h : t.weight = .error e) : e = .overflow := by
  cases t with
  | atomic p => cases h
  | any ts => exact sumWeights_error 0 ts h
  | all ts => exact sumWeights_error 0 ts h

theorem sumWeights_error (total : Nat) (ts : List Term) {e : Fault}
    (h : sumWeights total ts = .error e) : e = .overflow := by
  cases ts with
  | nil => cases h
  | cons t ts =>
    rw [sumWeights, bind_eq_error] at h
    rcases h with h | ⟨w, -, h⟩
    · exact weight_error t h
    · rcases bind_eq_error.1 h with h | ⟨total', -, h⟩
      · exact unsigned_error h
      · exact sumWeights_error total' ts h

end

mutual

/-- The weight of a term if there was room for it. -/
def mass : Term → Nat
  | atomic p => p.weight
  | any ts => masses ts
  | all ts => masses ts

def masses : List Term → Nat
  | [] => 0
  | t :: ts => t.mass + masses ts

end

mutual

/-- To add the weight of a term either leaves the word or adds its mass. -/
theorem add_weight (total : Nat) (t : Term) :
    (do unsigned (total + (← t.weight))) = unsigned (total + t.mass) := by
  cases t with
  | atomic p => rw [weight, mass]; rfl
  | any ts => rw [weight, mass, add_sumWeights total ts]
  | all ts => rw [weight, mass, add_sumWeights total ts]

theorem sumWeights_eq (total : Nat) (h : unsigned total = .ok total) (ts : List Term) :
    sumWeights total ts = unsigned (total + masses ts) := by
  cases ts with
  | nil => rw [sumWeights, masses, Nat.add_zero, h]
  | cons t ts =>
    rw [sumWeights, ← bind_assoc, add_weight total t, masses, ← Nat.add_assoc]
    rcases unsigned_cases (total + t.mass) with hfits | hfull
    · rw [hfits]
      exact sumWeights_eq _ hfits ts
    · have hnow := hfull 0
      rw [Nat.add_zero] at hnow
      rw [hnow, hfull]
      rfl

theorem add_sumWeights (total : Nat) (ts : List Term) :
    (do unsigned (total + (← sumWeights 0 ts))) = unsigned (total + masses ts) := by
  have hzero : unsigned 0 = .ok 0 := rfl
  rw [sumWeights_eq 0 hzero ts, Nat.zero_add]
  rcases unsigned_cases (masses ts) with h | h
  · rw [h]
    rfl
  · have hmasses := h 0
    rw [Nat.add_zero] at hmasses
    rw [hmasses, Nat.add_comm, h total]
    rfl

end

theorem weight_any (ts : List Term) : (any ts).weight = unsigned (masses ts) := by
  rw [weight, sumWeights_eq 0 rfl, Nat.zero_add]

theorem weight_all (ts : List Term) : (all ts).weight = unsigned (masses ts) := by
  rw [weight, sumWeights_eq 0 rfl, Nat.zero_add]

end Term

variable {A : Arena}

theorem Arena.weight_fails {c : ConstraintId} {e : Fault} (h : A.weight c = .error e) :
    e = .overflow ∨ ¬ A.Registered c ∧ e = .unregistered c := by
  rw [weight, bind_eq_error] at h
  rcases h with h | ⟨t, -, h⟩
  · right
    unfold term place at h
    cases hc : A.places[c]? with
    | none =>
      rw [hc] at h
      cases h
      refine ⟨fun hreg => ?_, rfl⟩
      obtain ⟨r, hr⟩ := hreg
      rw [hc] at hr
      cases hr
    | some r =>
      rw [hc] at h
      cases h
  · exact .inl (t.weight_error h)

theorem Arena.weight_error {c : ConstraintId} (hc : A.Registered c) {e : Fault}
    (h : A.weight c = .error e) : e = .overflow :=
  (weight_fails h).resolve_right fun hno => hno.1 hc

theorem Clause.weight_fails {c : Clause} {e : Fault} (h : c.weight A = .error e) :
    e = .overflow ∨
      ∃ l ∈ c.literals, ¬ A.Registered l.constraint ∧ e = .unregistered l.constraint := by
  rw [weight] at h
  generalize 0 = total at h
  generalize c.literals = ls at h
  induction ls generalizing total with
  | nil => cases h
  | cons l ls ih =>
    rw [List.foldlM_cons, bind_eq_error] at h
    rcases h with h | ⟨total', -, h⟩
    · rcases bind_eq_error.1 h with h | ⟨w, -, h⟩
      · exact (Arena.weight_fails h).imp_right fun hno => ⟨l, List.mem_cons_self, hno⟩
      · exact .inl (unsigned_error h)
    · refine (ih total' h).imp_right fun hex => ?_
      obtain ⟨m, hm, hno⟩ := hex
      exact ⟨m, List.mem_cons_of_mem l hm, hno⟩

theorem Clause.weight_error {c : Clause} (hc : ∀ l ∈ c.literals, A.Registered l.constraint)
    {e : Fault} (h : c.weight A = .error e) : e = .overflow := by
  rcases weight_fails h with h | ⟨l, hl, hno, -⟩
  · exact h
  · exact absurd (hc l hl) hno

namespace ClauseStore

/-! A choice only fails where the weight of a clause is not told. -/

theorem heaviest_error {best : Option (ClauseKey × Nat)} {es : List (ClauseKey × Clause)}
    {e : Fault} (h : heaviest A best es = .error e) : ∃ p ∈ es, p.2.weight A = .error e := by
  induction es generalizing best with
  | nil => cases h
  | cons p es ih =>
    rw [heaviest, bind_eq_error] at h
    rcases h with h | ⟨w, -, h⟩
    · exact ⟨p, List.mem_cons_self, h⟩
    · obtain ⟨q, hq, hw⟩ := ih h
      exact ⟨q, List.mem_cons_of_mem p hq, hw⟩

theorem selectUnmarked_error {how : Selection} {S : ClauseStore} {e : Fault}
    (h : S.selectUnmarked A how = .error e) : ∃ c ∈ S.clauses, c.weight A = .error e := by
  cases how with
  | firstUnmarked => cases h
  | maxWeight =>
    obtain ⟨p, hp, hw⟩ := heaviest_error h
    exact ⟨p.2, get?_mem (mem_entries.1 (List.mem_filter.1 hp).1), hw⟩

theorem select_error {how : Selection} {S : ClauseStore} {e : Fault}
    (h : S.select A how = .error e) : ∃ c ∈ S.clauses, c.weight A = .error e := by
  rw [select, bind_eq_error] at h
  rcases h with h | ⟨k, -, h⟩
  · exact selectUnmarked_error h
  · cases k with
    | some k => cases h
    | none =>
      dsimp only at h
      split at h
      · rcases bind_eq_error.1 h with h | ⟨k, -, h⟩
        · obtain ⟨c, hc, hw⟩ := selectUnmarked_error h
          obtain ⟨d, hd, hl⟩ := (sameLiterals_unmarkAll S).mem hc
          exact ⟨d, hd, by rwa [Clause.weight, hl, ← Clause.weight]⟩
        · cases h
      · cases h

end ClauseStore

theorem Formula.addWeighed_error {F : Formula} {c : Clause}
    (hc : ∀ l ∈ c.literals, A.Registered l.constraint) {e : Fault}
    (h : F.addWeighed A c = .error e) : e = .overflow := by
  rw [addWeighed, bind_eq_error] at h
  rcases h with h | ⟨ts, -, h⟩
  · generalize c.literals = ls at hc h
    induction ls with
    | nil => cases h
    | cons l ls ih =>
      rw [List.mapM_cons, bind_eq_error] at h
      rcases h with h | ⟨t, -, h⟩
      · rw [term, bind_eq_error] at h
        rcases h with h | ⟨w, -, h⟩
        · exact Arena.weight_error (hc l List.mem_cons_self) h
        · rcases bind_eq_error.1 h with h | ⟨n, -, h⟩
          · exact signed_error h
          · cases h
      · rcases bind_eq_error.1 h with h | ⟨ts, -, h⟩
        · exact ih (fun m hm => hc m (List.mem_cons_of_mem l hm)) h
        · cases h
  · cases h

theorem Formula.addWeighed_eq_ok {F G : Formula} {c : Clause} (h : F.addWeighed A c = .ok G) :
    G.stores = F.stores ∧ G.window = F.window ∧
      ∀ t ∈ G.terms, t ∈ F.terms ∨ t.1 ∈ c.literals := by
  rw [addWeighed, bind_eq_ok] at h
  obtain ⟨ts, hts, h⟩ := h
  cases h
  refine ⟨rfl, rfl, fun t ht => ?_⟩
  rcases List.mem_append.1 ht with ht | ht
  · exact .inl ht
  · obtain ⟨l, hl, ht⟩ := (mem_of_mapM hts).1 ht
    rw [term, bind_eq_ok] at ht
    obtain ⟨w, -, ht⟩ := ht
    obtain ⟨n, -, ht⟩ := bind_eq_ok.1 ht
    cases ht
    exact .inr hl

end Acquisition
