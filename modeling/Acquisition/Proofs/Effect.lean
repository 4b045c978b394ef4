import Acquisition.Effect
import Acquisition.Limit

/-!
# Reasoning about actions

An action started in a state leads to a value and a state, or to a failure and a
state. What is said of a composed action is reduced here to what is said of its
parts, in the order in which they run.
-/
namespace Acquisition

namespace Action

variable {σ τ α β : Type}

/-- Started in `s`, the action ends in a value and a state of `Q`, or in a failure
and a state of `E`. -/
def Leads (x : Action σ α) (s : σ) (Q : α → σ → Prop) (E : Failure → σ → Prop) : Prop :=
  match x.outcome s with
  | (.ok a, t) => Q a t
  | (.error f, t) => E f t

theorem leads_of_outcome {x : Action σ α} {s t : σ} {Q : α → σ → Prop}
    {E : Failure → σ → Prop} {r : Except Failure α} (h : x.outcome s = (r, t)) :
    x.Leads s Q E ↔ (∀ a, r = .ok a → Q a t) ∧ (∀ f, r = .error f → E f t) := by
  unfold Leads
  rw [h]
  cases r <;> simp

/-- What an action leads to can be looked up by running it. -/
instance (x : Action σ α) (s : σ) (Q : α → σ → Prop) (E : Failure → σ → Prop)
    [∀ a t, Decidable (Q a t)] [∀ f t, Decidable (E f t)] : Decidable (x.Leads s Q E) :=
  match h : x.outcome s with
  | (.ok a, t) => decidable_of_iff (Q a t) (by rw [Leads, h])
  | (.error f, t) => decidable_of_iff (E f t) (by rw [Leads, h])

theorem Leads.of_ok {x : Action σ α} {s t : σ} {Q : α → σ → Prop} {E : Failure → σ → Prop}
    {a : α} (h : x.Leads s Q E) (hx : x.outcome s = (.ok a, t)) : Q a t :=
  ((leads_of_outcome hx).1 h).1 a rfl

theorem Leads.of_error {x : Action σ α} {s t : σ} {Q : α → σ → Prop} {E : Failure → σ → Prop}
    {f : Failure} (h : x.Leads s Q E) (hx : x.outcome s = (.error f, t)) : E f t :=
  ((leads_of_outcome hx).1 h).2 f rfl

theorem Leads.exists_outcome {x : Action σ α} {s : σ} {Q : α → σ → Prop}
    (h : x.Leads s Q fun _ _ => False) : ∃ a t, x.outcome s = (.ok a, t) ∧ Q a t := by
  rcases houtcome : x.outcome s with ⟨_ | a, t⟩
  · exact (h.of_error houtcome).elim
  · exact ⟨a, t, rfl, h.of_ok houtcome⟩

theorem Leads.exists_failure {x : Action σ α} {s : σ} {E : Failure → σ → Prop}
    (h : x.Leads s (fun _ _ => False) E) : ∃ f t, x.outcome s = (.error f, t) ∧ E f t := by
  rcases houtcome : x.outcome s with ⟨f | _, t⟩
  · exact ⟨f, t, rfl, h.of_error houtcome⟩
  · exact (h.of_ok houtcome).elim

theorem Leads.mono {x : Action σ α} {s : σ} {Q Q' : α → σ → Prop} {E E' : Failure → σ → Prop}
    (h : x.Leads s Q E) (hQ : ∀ a t, Q a t → Q' a t) (hE : ∀ f t, E f t → E' f t) :
    x.Leads s Q' E' := by
  revert h
  unfold Leads
  split
  · exact hQ _ _
  · exact hE _ _

theorem Leads.and {x : Action σ α} {s : σ} {Q Q' : α → σ → Prop} {E E' : Failure → σ → Prop}
    (h : x.Leads s Q E) (h' : x.Leads s Q' E') :
    x.Leads s (fun a t => Q a t ∧ Q' a t) (fun f t => E f t ∧ E' f t) := by
  revert h h'
  unfold Leads
  split
  · exact And.intro
  · exact And.intro

/-- An action leads to its own outcome. -/
theorem leads_outcome (x : Action σ α) (s : σ) :
    x.Leads s (fun a t => x.outcome s = (.ok a, t)) fun f t => x.outcome s = (.error f, t) := by
  unfold Leads
  generalize x.outcome s = p
  obtain ⟨r, t⟩ := p
  cases r with
  | ok a => rfl
  | error f => rfl

theorem leads_trivial (x : Action σ α) (s : σ) :
    x.Leads s (fun _ _ => True) fun _ _ => True := by
  unfold Leads
  split
  · trivial
  · trivial

@[simp] theorem leads_pure (a : α) (s : σ) (Q : α → σ → Prop) (E : Failure → σ → Prop) :
    (pure a : Action σ α).Leads s Q E ↔ Q a s := Iff.rfl

@[simp] theorem leads_throw (f : Failure) (s : σ) (Q : α → σ → Prop) (E : Failure → σ → Prop) :
    (throw f : Action σ α).Leads s Q E ↔ E f s := Iff.rfl

@[simp] theorem leads_fail (e : ErrorKind) (s : σ) (Q : α → σ → Prop) (E : Failure → σ → Prop) :
    (Action.fail e : Action σ α).Leads s Q E ↔ E (.error e) s := Iff.rfl

@[simp] theorem leads_fault (f : Fault) (s : σ) (Q : α → σ → Prop) (E : Failure → σ → Prop) :
    (Action.fault f : Action σ α).Leads s Q E ↔ E (.fault f) s := Iff.rfl

theorem outcome_bind (x : Action σ α) (f : α → Action σ β) (s : σ) :
    (x >>= f).outcome s =
      match x.outcome s with
      | (.ok a, t) => (f a).outcome t
      | (.error e, t) => (.error e, t) := by
  change (ExceptT.bindCont f (x.run s).1).run (x.run s).2 = _
  unfold outcome
  generalize x.run s = p
  obtain ⟨r, t⟩ := p
  cases r <;> rfl

@[simp] theorem leads_bind (x : Action σ α) (f : α → Action σ β) (s : σ) (Q : β → σ → Prop)
    (E : Failure → σ → Prop) :
    (x >>= f).Leads s Q E ↔ x.Leads s (fun a t => (f a).Leads t Q E) E := by
  unfold Leads
  rw [outcome_bind]
  generalize x.outcome s = p
  obtain ⟨r, t⟩ := p
  cases r <;> rfl

/-- What an action leads to is where the next one starts. -/
theorem Leads.bind {x : Action σ α} {f : α → Action σ β} {s : σ} {Q' : α → σ → Prop}
    {Q : β → σ → Prop} {E' E : Failure → σ → Prop} (h : x.Leads s Q' E')
    (hf : ∀ a t, Q' a t → (f a).Leads t Q E) (hE : ∀ e t, E' e t → E e t) :
    (x >>= f).Leads s Q E := (leads_bind x f s Q E).2 (h.mono hf hE)

/-- The same for two actions in a row, of which something is known together. -/
theorem Leads.bind_bind {γ : Type} {x : Action σ α} {f : α → Action σ β} {k : β → Action σ γ}
    {s : σ} {Q' : β → σ → Prop} {Q : γ → σ → Prop} {E' E : Failure → σ → Prop}
    (h : (x >>= f).Leads s Q' E') (hk : ∀ b t, Q' b t → (k b).Leads t Q E)
    (hE : ∀ e t, E' e t → E e t) : (x >>= fun a => f a >>= k).Leads s Q E := by
  rw [leads_bind] at h ⊢
  exact h.mono (fun a t ha => ha.bind hk hE) hE

@[simp] theorem leads_map (f : α → β) (x : Action σ α) (s : σ) (Q : β → σ → Prop)
    (E : Failure → σ → Prop) :
    (f <$> x).Leads s Q E ↔ x.Leads s (fun a t => Q (f a) t) E := by
  rw [← bind_pure_comp]
  exact leads_bind x _ s Q E

@[simp] theorem leads_ofExcept (r : Except Failure α) (s : σ) (Q : α → σ → Prop)
    (E : Failure → σ → Prop) :
    (ofExcept r : Action σ α).Leads s Q E ↔
      (∀ a, r = .ok a → Q a s) ∧ (∀ f, r = .error f → E f s) := by
  cases r <;> simp [ofExcept]

/-- Renaming the failure of a result renames it in the action, too. -/
theorem leads_mapError {ε : Type} (r : Except ε α) (g : ε → Failure) (s : σ) (Q : α → σ → Prop)
    (E : Failure → σ → Prop) :
    (ofExcept (r.mapError g) : Action σ α).Leads s Q E ↔
      (∀ a, r = .ok a → Q a s) ∧ (∀ e, r = .error e → E (g e) s) := by
  cases r with
  | ok a => simp [show Except.mapError g (.ok a) = .ok a from rfl]
  | error e => simp [show Except.mapError g (.error e : Except ε α) = .error (g e) from rfl]

@[simp] theorem leads_ofChecked (r : Checked α) (s : σ) (Q : α → σ → Prop)
    (E : Failure → σ → Prop) :
    (ofChecked r : Action σ α).Leads s Q E ↔
      (∀ a, r = .ok a → Q a s) ∧ (∀ f, r = .error f → E (.fault f) s) :=
  leads_mapError r .fault s Q E

@[simp] theorem leads_ofForeseen (r : Except ErrorKind α) (s : σ) (Q : α → σ → Prop)
    (E : Failure → σ → Prop) :
    (ofForeseen r : Action σ α).Leads s Q E ↔
      (∀ a, r = .ok a → Q a s) ∧ (∀ e, r = .error e → E (.error e) s) :=
  leads_mapError r .error s Q E

@[simp] theorem leads_get (s : σ) (Q : σ → σ → Prop) (E : Failure → σ → Prop) :
    (get : Action σ σ).Leads s Q E ↔ Q s s := Iff.rfl

@[simp] theorem leads_modify (f : σ → σ) (s : σ) (Q : PUnit → σ → Prop) (E : Failure → σ → Prop) :
    (modify f : Action σ PUnit).Leads s Q E ↔ Q ⟨⟩ (f s) := Iff.rfl

@[simp] theorem leads_set (t s : σ) (Q : PUnit → σ → Prop) (E : Failure → σ → Prop) :
    (set t : Action σ PUnit).Leads s Q E ↔ Q ⟨⟩ t := Iff.rfl

@[simp] theorem leads_attempt (x : Action σ α) (s : σ) (Q : Except Failure α → σ → Prop)
    (E : Failure → σ → Prop) :
    x.attempt.Leads s Q E ↔ x.Leads s (fun a t => Q (.ok a) t) (fun f t => Q (.error f) t) := by
  change (match (x.run s) with | (r, t) => Q r t) ↔ _
  unfold Leads outcome
  generalize x.run s = p
  obtain ⟨r, t⟩ := p
  cases r <;> rfl

@[simp] theorem leads_zoom (part : σ → τ) (put : τ → σ → σ) (x : Action τ α) (s : σ)
    (Q : α → σ → Prop) (E : Failure → σ → Prop) :
    (zoom part put x).Leads s Q E ↔
      x.Leads (part s) (fun a t => Q a (put t s)) (fun f t => E f (put t s)) := by
  change (match (x.outcome (part s)) with
    | (r, t) => match (r, put t s) with | (.ok a, u) => Q a u | (.error f, u) => E f u) ↔ _
  unfold Leads
  generalize x.outcome (part s) = p
  obtain ⟨r, t⟩ := p
  cases r <;> rfl

/-- However the action ends, a property of the state stays. -/
def Preserves (x : Action σ α) (I : σ → Prop) : Prop :=
  ∀ s, I s → x.Leads s (fun _ => I) fun _ => I

theorem preserves_pure (a : α) (I : σ → Prop) : (pure a : Action σ α).Preserves I :=
  fun _ hs => hs

theorem preserves_ofChecked (r : Checked α) (I : σ → Prop) :
    (ofChecked r : Action σ α).Preserves I :=
  fun s hs => (leads_ofChecked r s _ _).2 ⟨fun _ _ => hs, fun _ _ => hs⟩

theorem Preserves.bind {x : Action σ α} {f : α → Action σ β} {I : σ → Prop}
    (h : x.Preserves I) (hf : ∀ a, (f a).Preserves I) : (x >>= f).Preserves I :=
  fun s hs => (h s hs).bind (fun a t ht => hf a t ht) fun _ _ ht => ht

theorem Preserves.of_outcome {x : Action σ α} {I : σ → Prop} (h : x.Preserves I) {s t : σ}
    (hs : I s) {r : Except Failure α} (hx : x.outcome s = (r, t)) : I t := by
  cases r with
  | ok a => exact (h s hs).of_ok hx
  | error f => exact (h s hs).of_error hx

end Action

namespace Procedure

open Acquisition.Action

variable {τ σ υ α : Type}

@[simp] theorem leads_own (p : τ × σ) (Q : τ → τ × σ → Prop) (E : Failure → τ × σ → Prop) :
    Leads (own : Procedure τ σ τ) p Q E ↔ Q p.1 p := Iff.rfl

@[simp] theorem leads_update (f : τ → τ) (p : τ × σ) (Q : Unit → τ × σ → Prop)
    (E : Failure → τ × σ → Prop) :
    Leads (update f : Procedure τ σ Unit) p Q E ↔ Q () (f p.1, p.2) := Iff.rfl

@[simp] theorem leads_call (x : Action σ α) (p : τ × σ) (Q : α → τ × σ → Prop)
    (E : Failure → τ × σ → Prop) :
    Leads (call x : Procedure τ σ α) p Q E ↔
      x.Leads p.2 (fun a t => Q a (p.1, t)) (fun f t => E f (p.1, t)) := leads_zoom ..

@[simp] theorem leads_callWith (x : τ → Action σ α) (p : τ × σ) (Q : α → τ × σ → Prop)
    (E : Failure → τ × σ → Prop) :
    Leads (callWith x : Procedure τ σ α) p Q E ↔
      (x p.1).Leads p.2 (fun a t => Q a (p.1, t)) (fun f t => E f (p.1, t)) := by
  simp [callWith]

@[simp] theorem leads_check (f : τ → Checked α) (p : τ × σ) (Q : α → τ × σ → Prop)
    (E : Failure → τ × σ → Prop) :
    Leads (check f : Procedure τ σ α) p Q E ↔
      (∀ a, f p.1 = .ok a → Q a p) ∧ (∀ e, f p.1 = .error e → E (.fault e) p) := by
  simp [check]

/-- A computation that keeps its promises has no say in what comes next. -/
theorem leads_check_of {f : τ → Checked α} {p : τ × σ} {a : α} (h : f p.1 = .ok a)
    {Q : α → τ × σ → Prop} {E : Failure → τ × σ → Prop} :
    Leads (check f : Procedure τ σ α) p Q E ↔ Q a p := by
  rw [leads_check, h]
  simp

@[simp] theorem leads_within (part : τ → υ) (put : υ → τ → τ) (x : Procedure υ σ α) (p : τ × σ)
    (Q : α → τ × σ → Prop) (E : Failure → τ × σ → Prop) :
    Leads (within part put x) p Q E ↔
      Leads x (part p.1, p.2) (fun a q => Q a (put q.1 p.1, q.2))
        (fun f q => E f (put q.1 p.1, q.2)) := leads_zoom ..

end Procedure

@[simp] theorem Limit.leads_poll {σ : Type} (l : Limit) (s : σ) (Q : Unit → σ → Prop)
    (E : Failure → σ → Prop) :
    Action.Leads (l.poll : Action σ Unit) s Q E ↔
      (l = .unbounded → Q () s) ∧ (l = .passed → E (.error .timeout) s) := by
  cases l <;> simp [Limit.poll, Limit.isPassed]

end Acquisition
