import Acquisition.Subsets.MapSearch
import Acquisition.Proofs.Subsets

/-!
# Growing and shrinking

A satisfiable seed grows to a maximal subset that is satisfiable, and any other seed
shrinks to a minimal one that is not. The ways to spare a call of the backend while a
subset grows lose nothing: what holds on the witness at hand may be added, and what
is the negation of a member may not.
-/
namespace Acquisition.MapSearch

open Checked IndexSet

variable {σ : Type} {A : Arena} {dom : Ranges} {cp : CpBackend σ} {I : σ → Prop}
  {Err : Failure → σ → Prop} {st : σ}

/-- The base and the bias are made of constraints of the arena over the variables of
the base. -/
structure Framed (A : Arena) (M : MapSearch) : Prop where
  closed : M.base.Closed A
  spans : M.base.Spans A M.bias

/-- The ways in which a search may fail: its time is up, a backend fails, or a sum
leaves its word. The invariant of the world is kept all the same. -/
def Fails (A : Arena) (dom : Ranges) (I : σ → Prop) (Err : Failure → σ → Prop) (M : MapSearch)
    (f : Failure) (t : σ) : Prop :=
  I t ∧ ((f = .error .timeout ∧ M.deadline = .passed) ∨ Err f t ∨
    (f = .fault .overflow ∧ M.base.Overflows A dom M.bias))

theorem admits_insert_twin (hA : A.Built) {M : MapSearch} {s : IndexSet} {c : ConstraintId}
    (hc : A.Registered c) (ht : Arena.twin c ∈ s) : ¬ M.base.Admits A dom (s.insert c) := by
  rintro ⟨f, -, -, hf⟩
  exact (hA.paired.holds_twin hc f).1 (hf _ (mem_insert.2 (.inr ht)))
    (hf c (mem_insert.2 (.inl rfl)))

/-- What a subset has become once each of the given constraints was tried. -/
structure Grown (A : Arena) (dom : Ranges) (M : MapSearch) (G : Growing) (cs : List ConstraintId)
    (G' : Growing) : Prop where
  keeps : G.subset ⊆ G'.subset
  within : G'.subset ⊆ M.bias
  supports : M.base.Supports A dom G'.witness G'.subset
  tried : ∀ c ∈ cs, c ∈ G'.subset ∨ ¬ M.base.Admits A dom (G'.subset.insert c)
  counted : (∀ c, c ∉ G'.subset) → G'.refuted = G.refuted + cs.length

theorem Grown.refute {M : MapSearch} {G G' : Growing} {c : ConstraintId} {cs : List ConstraintId}
    (h : M.Grown A dom { G with refuted := G.refuted + 1 } cs G')
    (hno : ¬ M.base.Admits A dom (G.subset.insert c)) : M.Grown A dom G (c :: cs) G' where
  keeps := h.keeps
  within := h.within
  supports := h.supports
  tried := fun d hd => by
    rcases List.mem_cons.1 hd with rfl | hd
    · exact .inr (M.base.hereditary_admits.not_insert h.keeps hno)
    · exact h.tried d hd
  counted := fun hempty => by
    rw [h.counted hempty, List.length_cons]
    dsimp only
    omega

theorem Grown.accept {M : MapSearch} {G G' : Growing} {c : ConstraintId} {cs : List ConstraintId}
    {q : Query} (h : M.Grown A dom { G with subset := G.subset.insert c, witness := q } cs G') :
    M.Grown A dom G (c :: cs) G' := by
  have hmem : c ∈ G'.subset := h.keeps c (mem_insert.2 (.inl rfl))
  refine ⟨fun d hd => h.keeps d (mem_insert.2 (.inr hd)), h.within, h.supports, fun d hd => ?_,
    fun hempty => absurd hmem (hempty c)⟩
  rcases List.mem_cons.1 hd with rfl | hd
  · exact .inl hmem
  · exact h.tried d hd

theorem leads_tryEach (hcp : cp.Answers I dom Err) (hA : A.Built) {M : MapSearch} (hM : M.Framed A)
    {cs : List ConstraintId} (hcs : ∀ c ∈ cs, c ∈ M.bias) {G : Growing}
    (hsub : G.subset ⊆ M.bias) (hG : M.base.Supports A dom G.witness G.subset) (hI : I st) :
    (tryEach A cp M G cs).Leads st (fun G' t => I t ∧ M.Grown A dom G cs G')
      (M.Fails A dom I Err) := by
  induction cs generalizing G st with
  | nil =>
    rw [tryEach]
    exact ⟨hI, Subset.refl _, hsub, hG, by simp, fun _ => rfl⟩
  | cons c cs ih =>
    have hc := hcs c List.mem_cons_self
    have hreg := (hM.spans c hc).1
    have hcs' : ∀ d ∈ cs, d ∈ M.bias := fun d hd => hcs d (List.mem_cons_of_mem _ hd)
    have hsub' : G.subset.insert c ⊆ M.bias := insert_subset hsub hc
    have refute : ¬ M.base.Admits A dom (G.subset.insert c) → ∀ t, I t →
        (tryEach A cp M { G with refuted := G.refuted + 1 } cs).Leads t
          (fun G' t => I t ∧ M.Grown A dom G (c :: cs) G') (M.Fails A dom I Err) := fun hno t ht =>
      (ih hcs' (G := { G with refuted := G.refuted + 1 }) hsub hG ht).mono
        (fun _ _ h => ⟨h.1, h.2.refute hno⟩) fun _ _ h => h
    have accept : ∀ q, M.base.Supports A dom q (G.subset.insert c) → ∀ t, I t →
        (tryEach A cp M { G with subset := G.subset.insert c, witness := q } cs).Leads t
          (fun G' t => I t ∧ M.Grown A dom G (c :: cs) G') (M.Fails A dom I Err) := fun q hq t ht =>
      (ih hcs' (G := { G with subset := G.subset.insert c, witness := q }) hsub' hq ht).mono
        (fun _ _ h => ⟨h.1, h.2.accept⟩) fun _ _ h => h
    simp only [tryEach, Action.leads_bind, Limit.leads_poll, Action.leads_ofChecked]
    refine ⟨fun _ => ⟨fun n hn => ?_, fun e he => ?_⟩, fun hpassed => ⟨hI, .inl ⟨rfl, hpassed⟩⟩⟩
    · rw [hreg.negation] at hn
      cases hn
      split
      · next hin => exact refute (admits_insert_twin hA hreg hin) st hI
      · rw [Action.leads_bind, Action.leads_ofChecked]
        refine ⟨fun b hb => ?_, fun e he => ?_⟩
        · split
          · next hholds =>
            exact accept _ (hG.insert (((hG.check (hM.spans c hc)).1 b hb).1 hholds)) st hI
          · refine (Network.leads_witness hcp hA hM.closed (hM.spans.mono hsub') hI).bind_bind
              (fun r t h => ?_) fun f t h => ⟨h.1, .inr (.inl h.2)⟩
            obtain ⟨ht, hr⟩ := h
            cases r with
            | some q => exact accept q hr t ht
            | none => exact refute hr t ht
        · obtain ⟨rfl, hover⟩ := hG.check_error hM.spans hc he
          exact ⟨hI, .inr (.inr ⟨rfl, hover⟩)⟩
    · rw [hreg.negation] at he
      cases he

/-- Whatever holds on the witness may be added. -/
theorem absorb_spec {M : MapSearch} (hM : M.Framed A) {cs : List ConstraintId}
    (hcs : ∀ c ∈ cs, c ∈ M.bias) {G : Growing} (hsub : G.subset ⊆ M.bias)
    (hG : M.base.Supports A dom G.witness G.subset) :
    (∀ G', absorb A G cs = .ok G' → G.subset ⊆ G'.subset ∧ G'.subset ⊆ M.bias ∧
      M.base.Supports A dom G'.witness G'.subset ∧ G'.refuted = G.refuted) ∧
    ∀ e, absorb A G cs = .error e → e = .overflow ∧ M.base.Overflows A dom M.bias := by
  induction cs generalizing G with
  | nil =>
    refine ⟨fun G' h => ?_, nofun⟩
    cases h
    exact ⟨Subset.refl _, hsub, hG, rfl⟩
  | cons c cs ih =>
    have hc := hcs c List.mem_cons_self
    have hcs' : ∀ d ∈ cs, d ∈ M.bias := fun d hd => hcs d (List.mem_cons_of_mem _ hd)
    rw [absorb]
    cases hb : A.check G.witness c with
    | error e =>
      refine ⟨nofun, fun e' he' => ?_⟩
      cases he'
      exact hG.check_error hM.spans hc hb
    | ok b =>
      cases b with
      | false => exact ih hcs' hsub hG
      | true =>
        have hholds := ((hG.check (hM.spans c hc)).1 true hb).1 rfl
        obtain ⟨hok, herr⟩ := ih hcs' (G := { G with subset := G.subset.insert c })
          (insert_subset hsub hc) (hG.insert hholds)
        refine ⟨fun G' h => ?_, herr⟩
        obtain ⟨hle, hrest⟩ := hok G' h
        exact ⟨fun d hd => hle d (mem_insert.2 (.inr hd)), hrest⟩

/-- A subset that is supported passes the last check, unless a sum overflows in it. -/
theorem verify_spec {M : MapSearch} (hM : M.Framed A) {G : Growing} (hsub : G.subset ⊆ M.bias)
    (hG : M.base.Supports A dom G.witness G.subset)
    (hcount : (∀ c, c ∉ G.subset) → G.refuted = M.bias.size) {e : Fault}
    (h : M.verify A G = .error e) : e = .overflow ∧ M.base.Overflows A dom M.bias := by
  obtain ⟨N, hN, hclosed, -, hsolves, hmem⟩ :=
    Network.exists_extended dom hM.closed (hM.spans.mono hsub)
  have hq := (hsolves G.witness).2 hG
  have hnet : M.networkOf A G.subset = .ok N := hN
  have hvars : ∀ c ∈ N.constraints, ∀ v, A.Mentions c v → v ∈ G.witness.scope :=
    fun c hc v hv => hq.covers v ((hclosed c hc).2 v hv)
  rw [verify, hnet] at h
  cases hcheck : N.check A G.witness with
  | error e' =>
    obtain ⟨c, hc, hce⟩ := allM_eq_error hcheck
    have hc' : c ∈ N.constraints := mem_toList'.1 hc
    have hover := Arena.check_error (hclosed c hc').1 hce
    have he : e' = e := by simpa [hcheck, bind, Except.bind] using h
    subst he
    subst hover
    exact ⟨rfl, c, (hmem c).1 hc' |>.imp id fun h => hsub c h, G.witness, hG.solves, hce⟩
  | ok b =>
    cases b with
    | false =>
      obtain ⟨c, hc, hcf⟩ := (allM_eq_ok hcheck).2 rfl
      have hc' : c ∈ N.constraints := mem_toList'.1 hc
      exact absurd ((Arena.check_eq_ok hcf (hvars c hc')).2 (hq.holds c hc')) nofun
    | true =>
      have hfine : ¬ (G.subset.isEmpty && G.refuted != M.bias.size) = true := by
        rw [Bool.and_eq_true, isEmpty_eq_true, bne_iff_ne]
        exact fun ⟨hempty, hne⟩ => hne (hcount hempty)
      simp [hcheck, hfine, bind, Except.bind, pure, Except.pure] at h

/-- A satisfiable seed grows to a maximal subset that is satisfiable. -/
theorem leads_grow (hcp : cp.Answers I dom Err) (hA : A.Built) {M : MapSearch} (hM : M.Framed A)
    {seed : IndexSet} (hsub : seed ⊆ M.bias) {q : Query} (hq : M.base.Supports A dom q seed)
    (hI : I st) : (M.grow A cp seed q).Leads st
      (fun F t => I t ∧ Maximal (M.base.Admits A dom) M.bias F.subset ∧ seed ⊆ F.subset ∧
        M.base.Supports A dom F.witness F.subset) (M.Fails A dom I Err) := by
  have hdiff : ∀ s : IndexSet, ∀ c ∈ (M.bias.diff s).toList, c ∈ M.bias := fun s c hc =>
    (mem_diff.1 (mem_toList'.1 hc)).1
  -- Both ways of growing go on from a supported subset by trying what is left.
  have rest : ∀ G : Growing, seed ⊆ G.subset → G.subset ⊆ M.bias →
      M.base.Supports A dom G.witness G.subset → G.refuted = 0 →
      (do
        let G' ← tryEach A cp M G (M.bias.diff G.subset).toList
        Action.ofChecked (M.verify A G')
        return (⟨G'.subset, G'.witness⟩ : MaximalSubset)).Leads st
      (fun F t => I t ∧ Maximal (M.base.Admits A dom) M.bias F.subset ∧ seed ⊆ F.subset ∧
        M.base.Supports A dom F.witness F.subset) (M.Fails A dom I Err) := by
    intro G hseed hb hG hzero
    refine (leads_tryEach hcp hA hM (hdiff _) hb hG hI).bind (fun G' t ⟨hI, h⟩ => ?_)
      fun _ _ h => h
    rw [Action.leads_bind, Action.leads_ofChecked]
    refine ⟨fun _ _ => ⟨hI, ?_, Subset.trans hseed h.keeps, h.supports⟩, fun e he => ?_⟩
    · exact .of_tried M.base.hereditary_admits h.keeps h.within h.supports.admits h.tried
    · have hcount : (∀ c, c ∉ G'.subset) → G'.refuted = M.bias.size := fun hempty => by
        have hG0 : M.bias.diff G.subset = M.bias := ext_mem fun c => by
          rw [mem_diff]
          exact and_iff_left fun hc => hempty c (h.keeps c hc)
        rw [h.counted hempty, hzero, hG0, Nat.zero_add]
        rfl
      obtain ⟨rfl, hover⟩ := verify_spec hM h.within h.supports hcount he
      exact ⟨hI, .inr (.inr ⟨rfl, hover⟩)⟩
  have hstart : M.base.Supports A dom (Growing.mk seed q 0).witness (Growing.mk seed q 0).subset :=
    hq
  rw [grow]
  cases M.growth with
  | resolve => exact rest ⟨seed, q, 0⟩ (Subset.refl _) hsub hstart rfl
  | witness =>
    obtain ⟨hok, herr⟩ := absorb_spec hM (hdiff seed) (G := ⟨seed, q, 0⟩) hsub hstart
    rw [Action.leads_bind, Action.leads_ofChecked]
    refine ⟨fun G hG => ?_, fun e he => ?_⟩
    · obtain ⟨hle, hb, hsup, hzero⟩ := hok G hG
      exact rest G hle hb hsup hzero
    · obtain ⟨rfl, hover⟩ := herr e he
      exact ⟨hI, .inr (.inr ⟨rfl, hover⟩)⟩

/-- An unsatisfiable subset shrinks to one that each of the given constraints is
needed for. -/
theorem leads_shrink (hcp : cp.Answers I dom Err) (hA : A.Built) {M : MapSearch} (hM : M.Framed A)
    {cs : List ConstraintId} {mus : IndexSet} (hsub : mus ⊆ M.bias)
    (hmus : ¬ M.base.Admits A dom mus) (hI : I st) :
    (shrink A cp M mus cs).Leads st
      (fun mus' t => I t ∧ mus' ⊆ mus ∧ ¬ M.base.Admits A dom mus' ∧
        ∀ c ∈ cs, c ∈ mus' → M.base.Admits A dom (mus'.erase c)) (M.Fails A dom I Err) := by
  induction cs generalizing mus st with
  | nil => exact ⟨hI, Subset.refl _, hmus, nofun⟩
  | cons c cs ih =>
    have herase : mus.erase c ⊆ mus := fun d hd => (mem_erase.1 hd).1
    rw [shrink, Action.leads_bind, Limit.leads_poll]
    refine ⟨fun _ => ?_, fun hpassed => ⟨hI, .inl ⟨rfl, hpassed⟩⟩⟩
    refine (Network.leads_satisfiable hcp hA hM.closed
      (hM.spans.mono (Subset.trans herase hsub)) hI).bind_bind
      (fun b t ⟨ht, hb⟩ => ?_) fun f t ⟨ht, hf⟩ => ⟨ht, .inr (.inl hf)⟩
    cases b with
    | true =>
      refine (ih hsub hmus ht).mono (fun mus' _ ⟨hI, hle, hun, hall⟩ =>
        ⟨hI, hle, hun, fun d hd hd' => ?_⟩) fun _ _ h => h
      rcases List.mem_cons.1 hd with rfl | hd
      · refine M.base.hereditary_admits _ _ (fun e he => ?_) (hb.1 rfl)
        exact mem_erase.2 ⟨hle e (mem_erase.1 he).1, (mem_erase.1 he).2⟩
      · exact hall d hd hd'
    | false =>
      have hno : ¬ M.base.Admits A dom (mus.erase c) := fun h => nomatch hb.2 h
      refine (ih (Subset.trans herase hsub) hno ht).mono (fun mus' _ ⟨hI, hle, hun, hall⟩ =>
        ⟨hI, Subset.trans hle herase, hun, fun d hd hd' => ?_⟩) fun _ _ h => h
      rcases List.mem_cons.1 hd with rfl | hd
      · exact absurd rfl (mem_erase.1 (hle d hd')).2
      · exact hall d hd hd'

end Acquisition.MapSearch
