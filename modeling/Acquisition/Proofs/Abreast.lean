import Acquisition.Learner.Replay
import Acquisition.Proofs.Effect

/-!
# Learners that know the same

What is learnt from a query hangs on what is known and on the queries asked so far, and on
nothing else. Two learners that agree on that agree on it afterwards, whatever they have counted
and whatever they were set to do. Neither calls out to its world, and so the worlds may be
different ones.
-/
namespace Acquisition.Learner

open Procedure

variable {σ τ α β : Type}

/-- The learners know the same and were asked the same. -/
structure Abreast (L K : Learner) : Prop where
  arena : K.arena = L.arena
  atoms : K.atoms = L.atoms
  known : K.known = L.known
  undecided : K.undecided = L.undecided
  theory : K.theory = L.theory
  asked : K.asked = L.asked

theorem Abreast.refl (L : Learner) : L.Abreast L := ⟨rfl, rfl, rfl, rfl, rfl, rfl⟩

theorem Abreast.symm {L K : Learner} (h : L.Abreast K) : K.Abreast L :=
  ⟨h.arena.symm, h.atoms.symm, h.known.symm, h.undecided.symm, h.theory.symm, h.asked.symm⟩

theorem Abreast.trans {L K M : Learner} (h : L.Abreast K) (h' : K.Abreast M) : L.Abreast M where
  arena := h'.arena.trans h.arena
  atoms := h'.atoms.trans h.atoms
  known := h'.known.trans h.known
  undecided := h'.undecided.trans h.undecided
  theory := h'.theory.trans h.theory
  asked := h'.asked.trans h.asked

/-- For learners that are abreast the procedures come to the same, leave them abreast, and leave
the worlds alone. -/
def Concur (x : Procedure Learner σ α) (y : Procedure Learner τ α) : Prop :=
  ∀ L K s t, L.Abreast K → ∃ r L' K', Action.outcome x (L, s) = (r, (L', s)) ∧
    Action.outcome y (K, t) = (r, (K', t)) ∧ L'.Abreast K'

theorem concur_pure (a : α) :
    Concur (pure a : Procedure Learner σ α) (pure a : Procedure Learner τ α) :=
  fun L K _ _ h => ⟨.ok a, L, K, rfl, rfl, h⟩

theorem concur_ofExcept (r : Except Failure α) :
    Concur (Action.ofExcept r : Procedure Learner σ α)
      (Action.ofExcept r : Procedure Learner τ α) := by
  intro L K s t h
  cases r with
  | ok a => exact ⟨.ok a, L, K, rfl, rfl, h⟩
  | error f => exact ⟨.error f, L, K, rfl, rfl, h⟩

theorem Concur.bind {x : Procedure Learner σ α} {y : Procedure Learner τ α}
    {f : α → Procedure Learner σ β} {g : α → Procedure Learner τ β} (hx : Concur x y)
    (hf : ∀ a, Concur (f a) (g a)) : Concur (x >>= f) (y >>= g) := by
  intro L K s t h
  obtain ⟨r, L', K', hL, hK, h'⟩ := hx L K s t h
  rw [Action.outcome_bind, Action.outcome_bind, hL, hK]
  cases r with
  | ok a => exact hf a L' K' s t h'
  | error e => exact ⟨.error e, L', K', rfl, rfl, h'⟩

theorem concur_check {f : Learner → Checked α} (hf : ∀ L K, L.Abreast K → f K = f L) :
    Concur (check f : Procedure Learner σ α) (check f : Procedure Learner τ α) := by
  intro L K s t h
  obtain ⟨r, L', K', hL, hK, h'⟩ := concur_ofExcept ((f L).mapError .fault) L K s t h
  refine ⟨r, L', K', ?_, ?_, h'⟩
  · rw [check, Action.outcome_bind]
    exact hL
  · rw [check, Action.outcome_bind]
    change Action.outcome (Action.ofChecked (f K)) (K, t) = _
    rw [hf L K h]
    exact hK

theorem concur_update {f g : Learner → Learner}
    (h : ∀ L K, L.Abreast K → (f L).Abreast (g K)) :
    Concur (update f : Procedure Learner σ Unit) (update g : Procedure Learner τ Unit) :=
  fun L K _ _ h' => ⟨.ok (), f L, g K, rfl, rfl, h L K h'⟩

theorem concur_forM {f : β → Procedure Learner σ PUnit} {g : β → Procedure Learner τ PUnit}
    (h : ∀ b, Concur (f b) (g b)) (bs : List β) : Concur (bs.forM f) (bs.forM g) := by
  induction bs with
  | nil => exact concur_pure _
  | cons b bs ih => exact (h b).bind fun _ => ih

theorem concur_mapM {f : β → Procedure Learner σ α} {g : β → Procedure Learner τ α}
    (h : ∀ b, Concur (f b) (g b)) (bs : List β) : Concur (bs.mapM f) (bs.mapM g) := by
  induction bs with
  | nil => exact concur_pure _
  | cons b bs ih =>
    rw [List.mapM_cons, List.mapM_cons]
    exact (h b).bind fun _ => ih.bind fun _ => concur_pure _

/-! ### Learning -/

theorem concur_literal (c : ConstraintId) :
    Concur (literal c : Procedure Learner σ Literal) (literal c : Procedure Learner τ Literal) := by
  intro L K s t h
  have hresult := concur_ofExcept (σ := σ) (τ := τ)
    ((L.atoms.literal c).mapError Failure.error) L K s t h
  obtain ⟨r, L', K', hL, hK, h'⟩ := hresult
  refine ⟨r, L', K', ?_, ?_, h'⟩
  · rw [literal, Action.outcome_bind]
    exact hL
  · rw [literal, Action.outcome_bind]
    change Action.outcome (Action.ofForeseen (K.atoms.literal c)) (K, t) = _
    rw [h.atoms]
    exact hK

theorem concur_negation (c : ConstraintId) :
    Concur (negation c : Procedure Learner σ ConstraintId)
      (negation c : Procedure Learner τ ConstraintId) :=
  concur_check fun _ _ h => by rw [h.arena]

theorem concur_count (f g : Counters → Counters) :
    Concur (count f : Procedure Learner σ Unit) (count g : Procedure Learner τ Unit) :=
  concur_update fun _ _ h => ⟨h.arena, h.atoms, h.known, h.undecided, h.theory, h.asked⟩

theorem concur_propagate (l : Literal) :
    Concur (propagate l : Procedure Learner σ Unit) (propagate l : Procedure Learner τ Unit) := by
  rw [propagate, propagate]
  apply (concur_check fun _ _ h => by rw [h.theory]).bind
  rintro ⟨report, S⟩
  refine Concur.bind (concur_update fun _ _ h => ?_) fun _ => ?_
  · exact ⟨h.arena, h.atoms, h.known, h.undecided, rfl, h.asked⟩
  · split
    · exact concur_count _ _
    · exact concur_pure _

theorem concur_addClause (reduce : Bool) (c : Clause) :
    Concur (addClause reduce c : Procedure Learner σ Unit)
      (addClause reduce c : Procedure Learner τ Unit) := by
  apply concur_update
  intro L K h
  exact ⟨h.arena, h.atoms, h.known, h.undecided, by rw [h.theory], h.asked⟩

theorem concur_noteAsked (q : Query) :
    Concur (noteAsked q : Procedure Learner σ Unit)
      (noteAsked q : Procedure Learner τ Unit) := by
  apply concur_update
  intro L K h
  exact ⟨h.arena, h.atoms, h.known, h.undecided, h.theory, by rw [h.asked]⟩

theorem concur_reduce (f : Bias → Bias) :
    Concur (update fun L => { L with undecided := f L.undecided } : Procedure Learner σ Unit)
      (update fun L => { L with undecided := f L.undecided } : Procedure Learner τ Unit) := by
  apply concur_update
  intro L K h
  exact ⟨h.arena, h.atoms, h.known, by rw [h.undecided], h.theory, h.asked⟩

theorem concur_ruleOut (kappa : IndexSet) :
    Concur (ruleOut kappa : Procedure Learner σ Unit)
      (ruleOut kappa : Procedure Learner τ Unit) := by
  apply (concur_forM _ _).bind fun _ => concur_reduce (·.reduceAll kappa)
  intro c
  exact (concur_literal c).bind fun _ => concur_propagate _

theorem concur_confirm (reduce : Bool) (q : Query) (c : ConstraintId) :
    Concur (confirm reduce q c : Procedure Learner σ Unit)
      (confirm reduce q c : Procedure Learner τ Unit) := by
  rw [confirm, confirm]
  apply (concur_count _ _).bind
  intro _
  apply (concur_literal c).bind
  intro l
  apply (concur_propagate l).bind
  intro _
  apply (concur_addClause reduce _).bind
  intro _
  apply (concur_negation c).bind
  intro n
  apply (concur_reduce (·.reduce n)).bind
  intro _
  exact (concur_literal n).bind fun _ => concur_propagate _

theorem concur_learn (q : Query) (reduce : Bool) :
    Concur (learn q reduce : Procedure Learner σ Learnt)
      (learn q reduce : Procedure Learner τ Learnt) := by
  have hnote : ∀ r : Learnt, Concur (do noteAsked q; return r : Procedure Learner σ Learnt)
      (do noteAsked q; return r : Procedure Learner τ Learnt) :=
    fun r => (concur_noteAsked q).bind fun _ => concur_pure r
  rw [learn, learn]
  apply (concur_check fun _ _ h => by rw [h.undecided, h.arena]).bind
  intro kappa
  split
  · apply (concur_count _ _).bind
    intro _
    exact (concur_ruleOut kappa).bind fun _ => hnote _
  · apply (concur_count _ _).bind
    intro _
    split
    · refine Concur.bind (concur_update fun _ _ h => ?_) fun _ => hnote _
      exact ⟨h.arena, h.atoms, h.known, h.undecided, h.theory, h.asked⟩
    · exact (concur_confirm reduce q _).bind fun _ => hnote _
    · apply (concur_mapM concur_literal _).bind
      intro ls
      exact (concur_addClause reduce _).bind fun _ => hnote _

theorem concur_learnEarly (q : Query) :
    Concur (learnEarly q : Procedure Learner σ Learnt)
      (learnEarly q : Procedure Learner τ Learnt) := by
  have hrepeated : ∀ L K : Learner, L.Abreast K → K.isRepeated q = L.isRepeated q := by
    intro L K h
    rw [isRepeated, isRepeated, rejected, rejected, h.undecided, h.arena, h.asked]
  rw [learnEarly, learnEarly]
  split
  · apply (concur_check hrepeated).bind
    intro b
    split
    · exact (concur_noteAsked q).bind fun _ => concur_pure _
    · exact concur_learn q true
  · exact concur_learn q true

end Acquisition.Learner
