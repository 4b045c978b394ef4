import Acquisition.Witness.Search
import Acquisition.Proofs.Contracts
import Acquisition.Proofs.Exhaustive

/-!
# The search for witnesses misses nothing

A choice is given up only where a constraint fails on every valuation that extends the
choices made. So a solution keeps the search from coming back without choices, in whatever
order the values are tried. And choices for all variables settle each constraint that has a
variable, at the last of its variables at the latest.
-/
namespace Acquisition.Witness

open Checked IndexSet

variable {A : Arena} {dom : Ranges} {N : Network}

/-! ### One level -/

theorem firstSuccess_none {α : Type} {attempt : Value → Stream → Checked (Option α) × Stream}
    {xs : List Value} {g : Stream} (h : (firstSuccess attempt xs g).1 = .ok none) :
    ∀ x ∈ xs, ∃ g, (attempt x g).1 = .ok none := by
  induction xs generalizing g with
  | nil => exact nofun
  | cons x xs ih =>
    unfold firstSuccess at h
    split at h
    · next g' hx => exact List.forall_mem_cons.2 ⟨⟨g, by rw [hx]⟩, ih h⟩
    · next hne =>
      -- An attempt that came back without choices is not settled.
      generalize attempt x g = p at h hne
      obtain ⟨r, g'⟩ := p
      cases h
      exact absurd rfl (hne g')

theorem firstSuccess_settled {α : Type} {attempt : Value → Stream → Checked (Option α) × Stream}
    {xs : List Value} {g : Stream} {r : Checked (Option α)}
    (h : (firstSuccess attempt xs g).1 = r) (hr : r ≠ .ok none) :
    ∃ x ∈ xs, ∃ g, (attempt x g).1 = r := by
  induction xs generalizing g with
  | nil => exact absurd h.symm hr
  | cons x xs ih =>
    unfold firstSuccess at h
    split at h
    · obtain ⟨y, hy, hsettled⟩ := ih h
      exact ⟨y, List.mem_cons_of_mem x hy, hsettled⟩
    · exact ⟨x, List.mem_cons_self, g, h⟩

/-- What is tried with a value at a level. -/
def attempt (A : Arena) (level : Level) (rest : List Level) (choices : Choices) (x : Value)
    (g : Stream) : Checked (Option Choices) × Stream :=
  match level.watched.anyM (violates A ((level.var, x) :: choices)) with
  | .error f => (.error f, g)
  | .ok true => (.ok none, g)
  | .ok false => explore A rest ((level.var, x) :: choices) g

theorem explore_cons (level : Level) (rest : List Level) (choices : Choices) (g : Stream) :
    explore A (level :: rest) choices g =
      firstSuccess (attempt A level rest choices) (Stream.shuffle level.values g).1
        (Stream.shuffle level.values g).2 := rfl

/-- An attempt ends at a constraint that cannot be evaluated, at one that is violated, or
with what the levels below come to. -/
theorem attempt_cases {level : Level} {rest : List Level} {choices : Choices} {x : Value}
    {g : Stream} {r : Checked (Option Choices)} (h : (attempt A level rest choices x g).1 = r) :
    (∃ e, r = .error e ∧ ∃ c ∈ level.watched,
        violates A ((level.var, x) :: choices) c = .error e) ∨
      (r = .ok none ∧ ∃ c ∈ level.watched,
        violates A ((level.var, x) :: choices) c = .ok true) ∨
      (∀ c ∈ level.watched, violates A ((level.var, x) :: choices) c = .ok false) ∧
        (explore A rest ((level.var, x) :: choices) g).1 = r := by
  unfold attempt at h
  split at h
  · next e he => exact .inl ⟨e, h.symm, anyM_eq_error he⟩
  · next htrue => exact .inr (.inl ⟨h.symm, anyM_eq_true htrue⟩)
  · next hfalse => exact .inr (.inr ⟨anyM_eq_false hfalse, h⟩)

theorem violates_eq_ok {choices : Choices} {c : ConstraintId} {b : Bool}
    (h : violates A choices c = .ok b) :
    ∃ r, A.eval (choices.lookup ·) c = .ok r ∧ (b = true ↔ r = some false) := by
  obtain ⟨r, hr, hb⟩ := map_eq_ok.1 h
  exact ⟨r, hr, by rw [← hb, beq_iff_eq]⟩

theorem violates_eq_error {choices : Choices} {c : ConstraintId} {e : Fault}
    (h : violates A choices c = .error e) : A.eval (choices.lookup ·) c = .error e := by
  unfold violates at h
  cases hr : A.eval (choices.lookup ·) c with
  | ok r =>
    rw [hr] at h
    cases h
  | error e' =>
    rw [hr] at h
    cases h
    rfl

/-- A violated constraint fails on every valuation that extends the choices. -/
theorem not_holds_of_violates {choices : Choices} {c : ConstraintId}
    (h : violates A choices c = .ok true) {f : Valuation} (hf : f.Extends (choices.lookup ·)) :
    ¬ A.Holds f c := by
  obtain ⟨r, hr, hb⟩ := violates_eq_ok h
  rw [hb.1 rfl] at hr
  exact fun hholds => Bool.noConfusion ((Arena.eval_sound hf hr).2 hholds)

/-- A constraint all of whose variables have values comes to true unless it is violated. -/
theorem eval_of_not_violates {choices : Choices} {c : ConstraintId}
    (h : violates A choices c = .ok false)
    (hc : ∀ v, A.Mentions c v → (choices.lookup v).isSome) :
    A.eval (choices.lookup ·) c = .ok (some true) := by
  obtain ⟨r, hr, hb⟩ := violates_eq_ok h
  obtain ⟨b, rfl⟩ := Arena.eval_settled hc hr
  have htrue : b = true := by
    by_contra hfalse
    exact Bool.noConfusion (hb.2 (congrArg some (Bool.eq_false_iff.2 hfalse)))
  rw [hr, htrue]

/-! ### The levels of a network -/

/-- The level is for a variable of the network: it has the values that the variable may
take, and watches the constraints that mention it. -/
structure Level.Fits (A : Arena) (dom : Ranges) (N : Network) (level : Level) : Prop where
  scope : level.var ∈ N.scope
  values : ∀ x, x ∈ level.values ↔ dom level.var x
  watched : ∀ c, c ∈ level.watched ↔ c ∈ N.constraints ∧ A.Mentions c level.var

/-- The valuation solves the network as far as a search can tell, which never looks at a
constraint without variables. -/
structure Passes (A : Arena) (dom : Ranges) (N : Network) (f : Valuation) : Prop where
  within : f.Within dom N.scope
  holds : ∀ c ∈ N.constraints, (∃ v, A.Mentions c v) → A.Holds f c

/-- A sum leaves its word when some constraint of the network is evaluated on values that
its variables may take. -/
def Spills (A : Arena) (dom : Ranges) (N : Network) : Prop :=
  ∃ c ∈ N.constraints, ∃ g : Var → Option Value,
    (∀ v x, g v = some x → v ∈ N.scope ∧ dom v x) ∧ A.eval g c = .error .overflow

theorem extends_cons {f : Valuation} {choices : Choices} (hf : f.Extends (choices.lookup ·))
    (v : Var) : f.Extends (List.lookup · ((v, f v) :: choices)) := by
  intro w x hx
  dsimp only at hx
  rw [Query.lookup_cons_if] at hx
  split at hx
  · next hw =>
    cases hx
    rw [hw]
  · exact hf w x hx

/-- Where a valuation that passes extends the choices, the search does not give up. -/
theorem explore_ne_none {levels : List Level} {choices : Choices} {g : Stream} {f : Valuation}
    (hlevels : ∀ level ∈ levels, level.Fits A dom N) (hpass : Passes A dom N f)
    (hf : f.Extends (choices.lookup ·)) : (explore A levels choices g).1 ≠ .ok none := by
  induction levels generalizing choices g with
  | nil => exact nofun
  | cons level rest ih =>
    intro h
    have hlevel := hlevels level List.mem_cons_self
    have hvalue := (hlevel.values _).2 (hpass.within level.var hlevel.scope)
    -- The value that the valuation gives is among those tried, in whatever order.
    rw [explore_cons] at h
    obtain ⟨g', hattempt⟩ := firstSuccess_none h _
      ((Stream.shuffle_perm level.values g).mem_iff.2 hvalue)
    have hext := extends_cons hf level.var
    rcases attempt_cases hattempt with ⟨e, he, -⟩ | ⟨-, c, hc, hviolates⟩ | ⟨-, hrest⟩
    · cases he
    · obtain ⟨hcN, hmentions⟩ := (hlevel.watched c).1 hc
      exact not_holds_of_violates hviolates hext (hpass.holds c hcN ⟨_, hmentions⟩)
    · exact ih (fun l hl => hlevels l (List.mem_cons_of_mem level hl)) hext hrest

/-- A search that fails met a sum that leaves its word, on values it may try. -/
theorem explore_error {levels : List Level} {choices : Choices} {g : Stream} {e : Fault}
    (hlevels : ∀ level ∈ levels, level.Fits A dom N)
    (hchoices : ∀ p ∈ choices, p.1 ∈ N.scope ∧ dom p.1 p.2)
    (hreg : ∀ c ∈ N.constraints, A.Registered c)
    (h : (explore A levels choices g).1 = .error e) : e = .overflow ∧ Spills A dom N := by
  induction levels generalizing choices g with
  | nil => cases h
  | cons level rest ih =>
    have hlevel := hlevels level List.mem_cons_self
    rw [explore_cons] at h
    obtain ⟨x, hx, g', hattempt⟩ := firstSuccess_settled h nofun
    have hnext : ∀ p ∈ (level.var, x) :: choices, p.1 ∈ N.scope ∧ dom p.1 p.2 := by
      refine List.forall_mem_cons.2 ⟨⟨hlevel.scope, ?_⟩, hchoices⟩
      exact (hlevel.values x).1 ((Stream.shuffle_perm level.values g).mem_iff.1 hx)
    rcases attempt_cases hattempt with ⟨e', he, c, hc, herror⟩ | ⟨hnone, -⟩ | ⟨-, hrest⟩
    · cases he
      have heval := violates_eq_error herror
      have hcN := ((hlevel.watched c).1 hc).1
      have hover : e = .overflow := by
        obtain ⟨r, hr⟩ := hreg c hcN
        rw [Arena.eval, Arena.term_eq_ok.2 ⟨r, hr, rfl⟩] at heval
        exact r.term.eval_error heval
      refine ⟨hover, c, hcN, _, ?_, hover ▸ heval⟩
      intro v y hy
      obtain ⟨l₁, l₂, hl, -⟩ := List.lookup_eq_some_iff.1 hy
      exact hnext (v, y) (by rw [hl]; simp)
    · cases hnone
    · exact ih (fun l hl => hlevels l (List.mem_cons_of_mem level hl)) hnext hrest

/-- Choices are found by way of a value that violates no constraint of the level. -/
theorem explore_cons_some {level : Level} {rest : List Level} {choices found : Choices}
    {g : Stream} (hlevel : level.Fits A dom N)
    (h : (explore A (level :: rest) choices g).1 = .ok (some found)) :
    ∃ x g', dom level.var x ∧
      (∀ c ∈ level.watched, violates A ((level.var, x) :: choices) c = .ok false) ∧
      (explore A rest ((level.var, x) :: choices) g').1 = .ok (some found) := by
  rw [explore_cons] at h
  obtain ⟨x, hx, g', hattempt⟩ := firstSuccess_settled h nofun
  have hvalue := (hlevel.values x).1 ((Stream.shuffle_perm level.values g).mem_iff.1 hx)
  rcases attempt_cases hattempt with ⟨e, he, -⟩ | ⟨hnone, -⟩ | ⟨hwatched, hrest⟩
  · cases he
  · cases hnone
  · exact ⟨x, g', hvalue, hwatched, hrest⟩

/-- What is found extends the choices by a value for the variable of each level. -/
theorem explore_extends {levels : List Level} {choices found : Choices} {g : Stream}
    (hlevels : ∀ level ∈ levels, level.Fits A dom N)
    (h : (explore A levels choices g).1 = .ok (some found)) :
    ∃ new, found = new ++ choices ∧ new.map (·.1) = (levels.map (·.var)).reverse ∧
      ∀ p ∈ new, dom p.1 p.2 := by
  induction levels generalizing choices g with
  | nil =>
    cases h
    exact ⟨[], rfl, rfl, nofun⟩
  | cons level rest ih =>
    obtain ⟨x, g', hx, -, hrest⟩ := explore_cons_some (hlevels level List.mem_cons_self) h
    obtain ⟨new, rfl, hvars, hnew⟩ := ih (fun l hl => hlevels l (List.mem_cons_of_mem level hl)) hrest
    refine ⟨new ++ [(level.var, x)], by simp, by simp [hvars], ?_⟩
    intro p hp
    rcases List.mem_append.1 hp with hp | hp
    · exact hnew p hp
    · rw [List.mem_singleton.1 hp]
      exact hx

/-- What is found settles each constraint that some level watches, at the last one that
does: there, all of its variables have values. -/
theorem explore_eval {levels : List Level} {choices found : Choices} {g : Stream}
    (hlevels : ∀ level ∈ levels, level.Fits A dom N)
    (hnodup : (found.map (·.1)).Nodup)
    (h : (explore A levels choices g).1 = .ok (some found)) {c : ConstraintId}
    (hc : c ∈ N.constraints) (hwatched : ∃ level ∈ levels, A.Mentions c level.var)
    (hvars : ∀ v, A.Mentions c v → v ∈ levels.map (·.var) ∨ v ∈ choices.map (·.1)) :
    A.eval (found.lookup ·) c = .ok (some true) := by
  induction levels generalizing choices g with
  | nil =>
    obtain ⟨level, hlevel, -⟩ := hwatched
    cases hlevel
  | cons level rest ih =>
    have hfits := fun l hl => hlevels l (List.mem_cons_of_mem level hl)
    obtain ⟨x, g', hx, hviolates, hrest⟩ := explore_cons_some (hlevels level List.mem_cons_self) h
    by_cases hlater : ∃ l ∈ rest, A.Mentions c l.var
    · apply ih hfits hrest hlater
      intro v hv
      have hv' := hvars v hv
      rw [List.map_cons, List.mem_cons, or_assoc, or_left_comm] at hv'
      rwa [List.map_cons, List.mem_cons]
    · have hmentions : A.Mentions c level.var := by
        obtain ⟨l, hl, hmentions⟩ := hwatched
        rcases List.mem_cons.1 hl with rfl | hl
        · exact hmentions
        · exact absurd ⟨l, hl, hmentions⟩ hlater
      have hnot := hviolates c (((hlevels level List.mem_cons_self).watched c).2 ⟨hc, hmentions⟩)
      obtain ⟨new, rfl, -, -⟩ := explore_extends hfits hrest
      have hchosen : ∀ v, A.Mentions c v → (((level.var, x) :: choices).lookup v).isSome := by
        intro v hv
        rw [List.lookup_isSome_iff]
        rcases hvars v hv with hv' | hv'
        · rw [List.map_cons, List.mem_cons] at hv'
          rcases hv' with rfl | hv'
          · exact ⟨_, List.mem_cons_self, by simp⟩
          · obtain ⟨l, hl, rfl⟩ := List.mem_map.1 hv'
            exact absurd ⟨l, hl, hv⟩ hlater
        · obtain ⟨p, hp, rfl⟩ := List.mem_map.1 hv'
          exact ⟨p, List.mem_cons_of_mem _ hp, by simp⟩
      rw [← eval_of_not_violates hnot hchosen]
      apply Arena.eval_congr
      intro v hv
      -- The choices made so far are those found, up to the levels below.
      obtain ⟨y, hy⟩ := Option.isSome_iff_exists.1 (hchosen v hv)
      have hlast := hnodup
      rw [List.map_append, List.nodup_append] at hlast
      rw [hy, Query.lookup_eq_some_iff hnodup]
      exact List.mem_append_right new ((Query.lookup_eq_some_iff hlast.2.1).1 hy)

/-! ### The search for a network -/

namespace Searcher

/-- Some variable of the network has more values than there is room for in a list. -/
def Crowded (D : Domain) (N : Network) : Prop :=
  ∃ v ∈ N.scope, ∃ i, D.interval? v = some i ∧ i.list = .error .noRoom

theorem mem_of_values {D : Domain} {v : Var} {xs : List Value} (h : values D v = .ok xs)
    (x : Value) : x ∈ xs ↔ D.Allows v x := by
  unfold values at h
  split at h
  · next i hi =>
    rw [mapError_eq_ok] at h
    unfold Interval.list at h
    split at h
    · cases h
      rw [Interval.mem_values]
      simp [Domain.Allows, hi]
    · cases h
  · cases h

theorem values_eq_error {D : Domain} {v : Var} {e : Failure} (hv : (D.interval? v).isSome)
    (h : values D v = .error e) :
    e = .fault .noRoom ∧ ∃ i, D.interval? v = some i ∧ i.list = .error .noRoom := by
  obtain ⟨i, hi⟩ := Option.isSome_iff_exists.1 hv
  unfold values at h
  rw [hi] at h
  unfold Interval.list at h ⊢
  dsimp only at h
  split at h
  · cases h
  · next hroom =>
    cases h
    exact ⟨rfl, i, hi, if_neg hroom⟩

theorem mem_mentions {ms : List (ConstraintId × List Var)} (h : mentions A N = .ok ms)
    {c : ConstraintId} {v : Var} :
    (∃ vs, (c, vs) ∈ ms ∧ v ∈ vs) ↔ c ∈ N.constraints ∧ A.Mentions c v := by
  have hmem : ∀ p, p ∈ ms ↔ p.1 ∈ N.constraints ∧ A.vars p.1 = .ok p.2 := by
    intro p
    rw [mem_of_mapM h]
    simp only [pair_eq_ok, Network.toList, mem_toList']
    constructor
    · rintro ⟨d, hd, rfl, hvs⟩
      exact ⟨hd, hvs⟩
    · rintro ⟨hd, hvs⟩
      exact ⟨p.1, hd, rfl, hvs⟩
  constructor
  · rintro ⟨vs, hmem', hv⟩
    obtain ⟨hc, hvs⟩ := (hmem _).1 hmem'
    exact ⟨hc, (Arena.vars_eq_ok hvs).1 hv⟩
  · rintro ⟨hc, hv⟩
    obtain ⟨⟨d, vs⟩, hvs, hd⟩ := mapM_ok_of_mem h (mem_toList'.2 hc)
    obtain ⟨rfl, hvars⟩ := pair_eq_ok.1 hd
    exact ⟨vs, hvs, (Arena.vars_eq_ok hvars).2 hv⟩

/-- Each constraint of the network was handed out, so its variables are told. -/
theorem exists_mentions (hN : N.Closed A) : ∃ ms, mentions A N = .ok ms := by
  apply exists_mapM
  intro c hc
  obtain ⟨r, hr⟩ := (hN c (mem_toList'.1 hc)).1
  exact ⟨(c, r.vars), by rw [Arena.vars, Arena.place_eq_ok.2 hr]; rfl⟩

theorem levels_eq_ok {D : Domain} {ls : List Level} (h : levels D A N = .ok ls) :
    ls.map (·.var) = N.scope.toList ∧ ∀ level ∈ ls, level.Fits A D.Allows N := by
  unfold levels at h
  simp only [bind_eq_ok, mapError_eq_ok, pure_eq_ok] at h
  obtain ⟨valued, hvalued, mentioned, hmentioned, rfl⟩ := h
  constructor
  · rw [List.map_map, ← map_fst_of_mapM hvalued]
    rfl
  · intro level hlevel
    obtain ⟨⟨v, xs⟩, hp, rfl⟩ := List.mem_map.1 hlevel
    obtain ⟨w, hw, hxs⟩ := (mem_of_mapM hvalued).1 hp
    obtain ⟨rfl, hxs⟩ := pair_eq_ok.1 hxs
    refine ⟨mem_toList'.1 hw, mem_of_values hxs, ?_⟩
    intro c
    rw [← mem_mentions hmentioned]
    simp

theorem levels_eq_error {D : Domain} {e : Failure} (hN : N.Closed A)
    (hD : ∀ v ∈ N.scope, (D.interval? v).isSome) (h : levels D A N = .error e) :
    e = .fault .noRoom ∧ Crowded D N := by
  unfold levels at h
  rw [bind_eq_error] at h
  rcases h with hvalued | ⟨valued, -, h⟩
  · obtain ⟨v, hv, he⟩ := mapM_eq_error hvalued
    have hscope := mem_toList'.1 hv
    obtain ⟨rfl, hcrowded⟩ := values_eq_error (hD v hscope) (pair_eq_error.1 he)
    exact ⟨rfl, v, hscope, hcrowded⟩
  · obtain ⟨ms, hms⟩ := exists_mentions hN
    rw [hms] at h
    cases h

/-- Without choices there is no solution. -/
theorem explore_levels_none {D : Domain} {ls : List Level} {g : Stream}
    (hls : levels D A N = .ok ls) (h : (explore A ls [] g).1 = .ok none) (f : Valuation) :
    ¬ Passes A D.Allows N f := by
  intro hf
  have hempty : f.Extends (List.lookup · []) := by
    intro v x hx
    cases hx
  exact explore_ne_none (levels_eq_ok hls).2 hf hempty h

/-- The choices found give each variable of the scope one value, which it may take. -/
theorem explore_levels_valueOf {D : Domain} {ls : List Level} {g : Stream} {found : Choices}
    (hls : levels D A N = .ok ls) (h : (explore A ls [] g).1 = .ok (some found)) :
    (found.map (·.1)).Nodup ∧
      (∀ v x, (Query.ofPairs found).valueOf v = some x ↔ found.lookup v = some x) ∧
      ∀ v ∈ N.scope, ∃ x, (Query.ofPairs found).valueOf v = some x ∧ D.Allows v x := by
  obtain ⟨hvars, hfits⟩ := levels_eq_ok hls
  obtain ⟨new, hnew, hfound, hallowed⟩ := explore_extends hfits h
  rw [List.append_nil] at hnew
  subst hnew
  rw [hvars] at hfound
  have hnodup : (found.map (·.1)).Nodup := by
    rw [hfound]
    exact List.nodup_reverse.2 (nodup_toList N.scope)
  have hreverse : (found.reverse.map (·.1)).Nodup := by
    rw [List.map_reverse]
    exact List.nodup_reverse.2 hnodup
  have hvalue : ∀ v x, (Query.ofPairs found).valueOf v = some x ↔ found.lookup v = some x := by
    intro v x
    rw [Query.valueOf_ofPairs, Query.lookup_eq_some_iff hreverse, List.mem_reverse,
      Query.lookup_eq_some_iff hnodup]
  refine ⟨hnodup, hvalue, ?_⟩
  intro v hv
  rw [← mem_toList', ← List.mem_reverse, ← hfound] at hv
  obtain ⟨p, hp, rfl⟩ := List.mem_map.1 hv
  exact ⟨p.2, (hvalue p.1 p.2).2 ((Query.lookup_eq_some_iff hnodup).2 hp), hallowed p hp⟩

/-- Each constraint with a variable comes to true on the choices found. -/
theorem explore_levels_eval {D : Domain} {ls : List Level} {g : Stream} {found : Choices}
    (hN : N.Closed A) (hls : levels D A N = .ok ls)
    (h : (explore A ls [] g).1 = .ok (some found)) {c : ConstraintId} (hc : c ∈ N.constraints)
    (hmentions : ∃ v, A.Mentions c v) : A.eval (found.lookup ·) c = .ok (some true) := by
  obtain ⟨hvars, hfits⟩ := levels_eq_ok hls
  have hlevel : ∀ v, A.Mentions c v → v ∈ ls.map (·.var) := by
    intro v hv
    rw [hvars]
    exact mem_toList'.2 ((hN c hc).2 v hv)
  apply explore_eval hfits (explore_levels_valueOf hls h).1 h hc
  · obtain ⟨v, hv⟩ := hmentions
    obtain ⟨level, hmem, rfl⟩ := List.mem_map.1 (hlevel v hv)
    exact ⟨level, hmem, hv⟩
  · exact fun v hv => .inl (hlevel v hv)

/-- The choices found are a solution. -/
theorem explore_levels_some {D : Domain} {ls : List Level} {g : Stream} {found : Choices}
    (hN : N.Closed A) (hls : levels D A N = .ok ls)
    (h : (explore A ls [] g).1 = .ok (some found)) :
    N.scope ⊆ (Query.ofPairs found).scope ∧
      Passes A D.Allows N (Query.ofPairs found).valuation := by
  obtain ⟨-, hvalue, hscope⟩ := explore_levels_valueOf hls h
  have hext : (Query.ofPairs found).valuation.Extends (found.lookup ·) := by
    intro v x hx
    exact Query.valuation_extends _ v x ((hvalue v x).2 hx)
  constructor
  · intro v hv
    obtain ⟨x, hx, -⟩ := hscope v hv
    rw [Query.mem_scope, hx]
    rfl
  · constructor
    · intro v hv
      obtain ⟨x, hx, hallowed⟩ := hscope v hv
      rw [Query.valuation_extends _ v x hx]
      exact hallowed
    · intro c hc hmentions
      exact (Arena.eval_sound hext (explore_levels_eval hN hls h hc hmentions)).1 rfl

/-- The failures of a search without a limit: a variable has more values than there is room
for, or a sum leaves its word on values that its variables may take. -/
def GivesUp (A : Arena) (D : Domain) (N : Network) (e : Failure) : Prop :=
  (e = .fault .noRoom ∧ Crowded D N) ∨ (e = .fault .overflow ∧ Spills A D.Allows N)

/-- The search finds a query just where the constraints with variables have a solution. The
query it finds is one. -/
theorem witness_passes {S : Searcher} (hN : N.Closed A)
    (hD : ∀ v ∈ N.scope, (S.domain.interval? v).isSome) (hS : S.limit = .unbounded) :
    (witness A N).Leads S
      (fun r _ => (r = none → ∀ f, ¬ Passes A S.domain.Allows N f) ∧
        ∀ q, r = some q → N.scope ⊆ q.scope ∧ Passes A S.domain.Allows N q.valuation)
      (fun e _ => GivesUp A S.domain N e) := by
  unfold witness
  simp only [Action.leads_bind, Action.leads_modify, Action.leads_get, Action.leads_ofExcept]
  constructor
  · intro ls hls
    have hpassed : S.limit.isPassed = false := by rw [hS]; rfl
    simp only [hpassed, Bool.false_eq_true, if_false, Action.leads_bind, Action.leads_set,
      Action.leads_ofChecked, Action.leads_pure, Option.map_eq_none_iff]
    constructor
    · intro r hr
      constructor
      · intro hnone
        subst hnone
        exact explore_levels_none hls hr
      · intro q hq
        obtain ⟨found, rfl, rfl⟩ := Option.map_eq_some_iff.1 hq
        exact explore_levels_some hN hls hr
    · intro e he
      have hfits := (levels_eq_ok hls).2
      obtain ⟨rfl, hspills⟩ :=
        explore_error hfits (List.forall_mem_nil _) (fun c hc => (hN c hc).1) he
      exact .inr ⟨rfl, hspills⟩
  · intro e he
    exact .inl (levels_eq_error hN hD he)

/-- A network that can be satisfied within the domains of its variables has its query found.
If each of its constraints has a variable, a query is found just then. And whatever the
state of the generator, the search says the same, unless it cannot be carried through: a
variable has too many values to be listed, or a sum of values leaves its word. -/
theorem witness_settles {S : Searcher} (hN : N.Closed A)
    (hD : ∀ v ∈ N.scope, (S.domain.interval? v).isSome) (hS : S.limit = .unbounded) :
    (witness A N).Leads S
      (fun r _ => (N.Satisfiable A S.domain.Allows → r.isSome) ∧
        ((∀ c ∈ N.constraints, ∃ v, A.Mentions c v) →
          (r.isSome ↔ N.Satisfiable A S.domain.Allows)) ∧
        ∀ g, (witness A N).Leads { S with stream := g } (fun r' _ => r'.isSome = r.isSome)
          (fun e _ => GivesUp A S.domain N e))
      (fun e _ => GivesUp A S.domain N e) := by
  -- Where a query is found hangs on the network and on the domains alone.
  have hfound : ∀ g, (witness A N).Leads { S with stream := g }
      (fun r _ => r.isSome ↔ ∃ f, Passes A S.domain.Allows N f)
      (fun e _ => GivesUp A S.domain N e) := by
    intro g
    refine (witness_passes (S := { S with stream := g }) hN hD hS).mono ?_ fun _ _ he => he
    rintro (_ | q) - ⟨hnone, hsome⟩
    · exact iff_of_false nofun fun ⟨f, hf⟩ => hnone rfl f hf
    · exact iff_of_true rfl ⟨_, (hsome q rfl).2⟩
  refine (hfound S.stream).mono ?_ fun _ _ he => he
  intro r _ hr
  have hsat : N.Satisfiable A S.domain.Allows → r.isSome := by
    rintro ⟨f, hwithin, hholds⟩
    exact hr.2 ⟨f, hwithin, fun c hc _ => hholds c hc⟩
  refine ⟨hsat, fun hvars => ⟨fun hq => ?_, hsat⟩, fun g => ?_⟩
  · obtain ⟨f, hwithin, hholds⟩ := hr.1 hq
    exact ⟨f, hwithin, fun c hc => hholds c hc (hvars c hc)⟩
  · refine (hfound g).mono (fun r' _ hr' => ?_) fun _ _ he => he
    rw [Bool.eq_iff_iff, hr', hr]

/-- A searcher over two bits. -/
def overBits : Searcher := { domain := Exhaustive.bits, stream := .congruential 1 }

/-- That the first bit is zero and that the second one is one. -/
def both : Network := ⟨.ofList [0, 1], .ofList [0, 4]⟩

theorem closed_both : both.Closed Exhaustive.sample := by
  have h : Network.ofList Exhaustive.sample (.ofList [0, 1]) [0, 4] = .ok both := by decide +kernel
  exact (Network.closed_ofScope _ _).addAll h

theorem eval_ne_error_of_unary {c : ConstraintId} {v : Var} {op : Comparison} {k : Int} {w : Nat}
    (h : A.term c = .ok (.atomic (.unary v op k w))) (g : Var → Option Value) (e : Fault) :
    A.eval g c ≠ .error e := by
  have heval : A.eval g c = Term.evalPredicate g (.unary v op k w) := by
    rw [Arena.eval, h, ← Term.eval]
    rfl
  rw [heval]
  cases hv : g v with
  | none => simp [Term.evalPredicate, Predicate.vars, hv]
  | some x => simp [Term.evalPredicate, Predicate.vars, Predicate.holds, hv]

/-- A comparison with a constant is evaluated without a sum, and two values can be listed. -/
theorem not_givesUp_both (e : Failure) : ¬ GivesUp Exhaustive.sample Exhaustive.bits both e := by
  have hlist : ∀ v ∈ both.scope, (Exhaustive.bits.interval? v).all (·.list.toOption.isSome) := by
    decide
  rintro (⟨-, v, hv, i, hi, hroom⟩ | ⟨-, c, hc, g, -, herror⟩)
  · have hroom' := hlist v hv
    rw [hi, Option.all_some, hroom] at hroom'
    cases hroom'
  · have hc' : c = 0 ∨ c = 4 := by simpa [both] using hc
    have hfirst : Exhaustive.sample.term 0 = .ok (.atomic (.unary 0 .eq 0 1)) := by
      with_unfolding_all rfl
    have hlast : Exhaustive.sample.term 4 = .ok (.atomic (.unary 1 .eq 1 1)) := by
      with_unfolding_all rfl
    rcases hc' with rfl | rfl
    · exact eval_ne_error_of_unary hfirst g _ herror
    · exact eval_ne_error_of_unary hlast g _ herror

/-- The values of the two bits are found, in whatever order they are tried. -/
theorem witness_settles_both :
    both.Closed Exhaustive.sample ∧
      (∀ v ∈ both.scope, (overBits.domain.interval? v).isSome) ∧ overBits.limit = .unbounded ∧
      ∀ g, (witness Exhaustive.sample both).Leads { overBits with stream := g }
        (fun r _ => r.isSome) (fun _ _ => False) := by
  have hD : ∀ v ∈ both.scope, (overBits.domain.interval? v).isSome := by decide
  refine ⟨closed_both, hD, rfl, ?_⟩
  intro g
  refine (witness_settles (S := { overBits with stream := g }) closed_both hD rfl).mono ?_ ?_
  · rintro r - ⟨hsat, -⟩
    apply hsat
    refine ⟨fun v => v, ?_, ?_⟩
    · change Valuation.Within Exhaustive.bits.Allows both.scope _
      decide
    · decide +kernel
  · exact fun e _ he => not_givesUp_both e he

end Searcher

end Acquisition.Witness
