/-!
# Runs of a labelled transition system

A system is a partial step function on states and events: `step s e = none`
means that the event `e` is not possible in the state `s`.  `exec` executes a
list of events; `Run step ok` is the relation of the runs all of whose steps
satisfy a side condition `ok` on the state before the step and the event.
-/

namespace Transition

variable {σ ε τ δ : Type}

/-- Execute a list of events. -/
def exec (step : σ → ε → Option σ) : σ → List ε → Option σ
  | s, [] => some s
  | s, e :: es =>
      match step s e with
      | some s' => exec step s' es
      | none => none

/-- Runs all of whose steps satisfy `ok`. -/
inductive Run (step : σ → ε → Option σ) (ok : σ → ε → Prop) : σ → List ε → σ → Prop
  | nil (s : σ) : Run step ok s [] s
  | cons {s m s' : σ} {e : ε} {es : List ε}
      (hstep : step s e = some m) (hok : ok s e)
      (tail : Run step ok m es s') : Run step ok s (e :: es) s'

/-- The side condition that allows every step. -/
def anyStep : σ → ε → Prop := fun _ _ => True

variable {step : σ → ε → Option σ} {ok : σ → ε → Prop}

/-- An execution whose events are allowed in every state is a run. -/
theorem run_of_exec {s s' : σ} {es : List ε} (hok : ∀ e ∈ es, ∀ s, ok s e)
    (h : exec step s es = some s') : Run step ok s es s' := by
  induction es generalizing s with
  | nil =>
      obtain rfl := Option.some.inj h
      exact Run.nil s
  | cons e es ih =>
      cases hstep : step s e with
      | none => simp [exec, hstep] at h
      | some m =>
          refine Run.cons hstep (hok e List.mem_cons_self s) (ih ?_ ?_)
          · exact fun e he => hok e (List.mem_cons_of_mem _ he)
          · simpa [exec, hstep] using h

/-- The executable form and the relation agree on unrestricted runs. -/
theorem run_iff_exec {s s' : σ} {es : List ε} :
    Run step anyStep s es s' ↔ exec step s es = some s' := by
  constructor
  · intro h
    induction h with
    | nil s => rfl
    | cons hstep _ _ ih => simpa [exec, hstep] using ih
  · intro h
    exact run_of_exec (fun _ _ _ => trivial) h

/-- A weaker side condition allows more runs. -/
theorem Run.mono {ok' : σ → ε → Prop} {s s' : σ} {es : List ε}
    (h : Run step ok s es s') (himp : ∀ s e, ok s e → ok' s e) :
    Run step ok' s es s' := by
  induction h with
  | nil s => exact Run.nil s
  | cons hstep hok _ ih => exact Run.cons hstep (himp _ _ hok) ih

/-- A condition on the events alone. -/
theorem Run.forall_iff {P : ε → Prop} {s s' : σ} {es : List ε} :
    Run step (fun _ e => P e) s es s' ↔ Run step anyStep s es s' ∧ ∀ e ∈ es, P e := by
  constructor
  · intro h
    refine ⟨h.mono (fun _ _ _ => trivial), ?_⟩
    induction h with
    | nil s => exact fun e he => absurd he List.not_mem_nil
    | cons _ hok _ ih => exact List.forall_mem_cons.mpr ⟨hok, ih⟩
  · rintro ⟨hrun, hall⟩
    induction hrun with
    | nil s => exact Run.nil s
    | cons hstep _ _ ih =>
        exact Run.cons hstep (hall _ List.mem_cons_self)
          (ih (fun e he => hall e (List.mem_cons_of_mem _ he)))

/-- A single step is a run. -/
theorem Run.single {s s' : σ} {e : ε} (hstep : step s e = some s') (hok : ok s e) :
    Run step ok s [e] s' :=
  Run.cons hstep hok (Run.nil s')

/-- Runs compose. -/
theorem Run.append {s m s' : σ} {es fs : List ε}
    (h : Run step ok s es m) (h' : Run step ok m fs s') :
    Run step ok s (es ++ fs) s' := by
  induction h with
  | nil s => exact h'
  | cons hstep hok _ ih => exact Run.cons hstep hok (ih h')

/-- A run over a concatenation passes through a middle state. -/
theorem Run.split {s s' : σ} {es fs : List ε} (h : Run step ok s (es ++ fs) s') :
    ∃ m, Run step ok s es m ∧ Run step ok m fs s' := by
  induction es generalizing s with
  | nil => exact ⟨s, Run.nil s, h⟩
  | cons e es ih =>
      cases h with
      | cons hstep hok tail =>
          obtain ⟨m, hleft, hright⟩ := ih tail
          exact ⟨m, Run.cons hstep hok hleft, hright⟩

/-- Two runs over the same events end in the same state. -/
theorem Run.unique {ok' : σ → ε → Prop} {s m m' : σ} {es : List ε} (h : Run step ok s es m)
    (h' : Run step ok' s es m') : m = m' := by
  have hexec := run_iff_exec.mp (h.mono (fun _ _ _ => trivial))
  have hexec' := run_iff_exec.mp (h'.mono (fun _ _ _ => trivial))
  exact Option.some.inj (hexec.symm.trans hexec')

/-- A run passes through the state that its first events lead to. -/
theorem Run.through {ok' : σ → ε → Prop} {s m s' : σ} {es fs : List ε}
    (h : Run step ok s (es ++ fs) s') (hes : Run step ok' s es m) :
    Run step ok s es m ∧ Run step ok m fs s' := by
  obtain ⟨x, hleft, hright⟩ := h.split
  obtain rfl := hes.unique hleft
  exact ⟨hleft, hright⟩

/-- **Invariant rule.**  What every allowed step preserves, every run
preserves. -/
theorem Run.invariant (Inv : σ → Prop) {s s' : σ} {es : List ε}
    (h : Run step ok s es s') (hs : Inv s)
    (hpres : ∀ s e s', Inv s → ok s e → step s e = some s' → Inv s') :
    Inv s' := by
  induction h with
  | nil s => exact hs
  | cons hstep hok _ ih => exact ih (hpres _ _ _ hs hok hstep)

/-- **Invariant rule, strengthened side condition.**  Along a run whose start
satisfies an invariant, the invariant may be used to justify a side
condition. -/
theorem Run.strengthen (Inv : σ → Prop) {ok' : σ → ε → Prop} {s s' : σ} {es : List ε}
    (h : Run step ok s es s') (hs : Inv s)
    (hpres : ∀ s e s', Inv s → ok s e → step s e = some s' → Inv s')
    (himp : ∀ s e s', Inv s → ok s e → step s e = some s' → ok' s e) :
    Run step ok' s es s' := by
  induction h with
  | nil s => exact Run.nil s
  | cons hstep hok _ ih =>
      exact Run.cons hstep (himp _ _ _ hs hok hstep) (ih (hpres _ _ _ hs hok hstep))

/-- **Exact side condition.**  When a step from a good state leads to a good state
exactly if it is allowed, the runs that pass through good states only are the
allowed ones.  The invariant that helps to see this need only be kept by allowed
steps. -/
theorem Run.exact (Inv Good : σ → Prop) {s s' : σ} {es : List ε}
    (h : Run step anyStep s es s') (hs : Inv s) (hgood : Good s)
    (hpres : ∀ s e s', Inv s → ok s e → step s e = some s' → Inv s')
    (hexact : ∀ s e s', Inv s → Good s → step s e = some s' → (Good s' ↔ ok s e)) :
    (∀ fs gs m, es = fs ++ gs → Run step anyStep s fs m → Good m) ↔ Run step ok s es s' := by
  constructor
  · intro hall
    induction h with
    | nil s => exact Run.nil s
    | @cons s m s' e es hstep _ _ ih =>
        have hnext : Good m := hall [e] es m rfl (Run.single hstep trivial)
        have hok : ok s e := (hexact s e m hs hgood hstep).mp hnext
        refine Run.cons hstep hok (ih (hpres s e m hs hok hstep) hnext ?_)
        intro fs gs x heq hfs
        subst heq
        exact hall (e :: fs) gs x rfl (Run.cons hstep trivial hfs)
  · intro hrun fs gs m heq hfs
    subst heq
    obtain ⟨hleft, _⟩ := hrun.through hfs
    refine (hleft.invariant (fun s => Inv s ∧ Good s) ⟨hs, hgood⟩ ?_).2
    intro s e s' hboth hok hstep
    obtain ⟨hinv, hg⟩ := hboth
    exact ⟨hpres s e s' hinv hok hstep, (hexact s e s' hinv hg hstep).mpr hok⟩

/-- **Exact side condition, at the end.**  As `Run.exact`, where a state is good only if the
states before it were: then it is enough to look at the last one. -/
theorem Run.exact_last (Inv Good : σ → Prop) {s s' : σ} {es : List ε}
    (h : Run step anyStep s es s') (hs : Inv s) (hgood : Good s)
    (hback : ∀ s e s', step s e = some s' → Good s' → Good s)
    (hpres : ∀ s e s', Inv s → ok s e → step s e = some s' → Inv s')
    (hexact : ∀ s e s', Inv s → Good s → step s e = some s' → (Good s' ↔ ok s e)) :
    Good s' ↔ Run step ok s es s' := by
  rw [← h.exact Inv Good hs hgood hpres hexact]
  constructor
  · intro hlast fs gs m heq hfs
    subst heq
    obtain ⟨_, hright⟩ := h.through hfs
    refine hright.invariant (fun x => Good x → Good m) id ?_ hlast
    exact fun x e x' hinv _ hstep hx => hinv (hback x e x' hstep hx)
  · intro hall
    exact hall es [] s' (List.append_nil es).symm h

/-- **Forward simulation.**  When every step of the first system is a run of
the second between related states, every run is. -/
theorem Run.simulate {step₂ : τ → δ → Option τ} {ok₂ : τ → δ → Prop} {abs : σ → τ}
    (hsim : ∀ s e s', ok s e → step s e = some s' →
      ∃ fs, Run step₂ ok₂ (abs s) fs (abs s'))
    {s s' : σ} {es : List ε} (h : Run step ok s es s') :
    ∃ fs, Run step₂ ok₂ (abs s) fs (abs s') := by
  induction h with
  | nil s => exact ⟨[], Run.nil _⟩
  | cons hstep hok _ ih =>
      obtain ⟨fs, hfs⟩ := hsim _ _ _ hok hstep
      obtain ⟨gs, hgs⟩ := ih
      exact ⟨fs ++ gs, hfs.append hgs⟩

/-- A system with a history beside it: `note` says what a step adds. -/
def noted (step : σ → ε → Option σ) (note : σ → ε → τ → τ) (p : σ × τ) (e : ε) : Option (σ × τ) :=
  (step p.1 e).map (fun s => (s, note p.1 e p.2))

/-- A step with its history. -/
theorem noted_eq_some {note : σ → ε → τ → τ} {p q : σ × τ} {e : ε} :
    noted step note p e = some q ↔ step p.1 e = some q.1 ∧ q.2 = note p.1 e p.2 := by
  obtain ⟨s, h⟩ := q
  unfold noted
  cases step p.1 e with
  | none => simp
  | some m => simp [Prod.ext_iff, eq_comm]

/-- Every run has a history. -/
theorem Run.noted (note : σ → ε → τ → τ) {s s' : σ} {es : List ε} (h : Run step ok s es s')
    (a : τ) : ∃ a', Run (noted step note) (fun p => ok p.1) (s, a) es (s', a') := by
  induction h generalizing a with
  | nil s => exact ⟨a, Run.nil _⟩
  | @cons s m s' e es hstep hok _ ih =>
      obtain ⟨a', hrun⟩ := ih (note s e a)
      exact ⟨a', Run.cons (noted_eq_some.mpr ⟨hstep, rfl⟩) hok hrun⟩

/-- The events so far, as history. -/
def past (_ : σ) (e : ε) (before : List ε) : List ε := before ++ [e]

/-- The history of the events of a run is what it has executed. -/
theorem Run.past_iff {s s' : σ} {es before after : List ε} :
    Run (Transition.noted step past) (fun p => ok p.1) (s, before) es (s', after) ↔
      Run step ok s es s' ∧ after = before ++ es := by
  induction es generalizing s before with
  | nil =>
      constructor
      · intro h
        cases h
        exact ⟨Run.nil _, (List.append_nil _).symm⟩
      · rintro ⟨h, rfl⟩
        cases h
        rw [List.append_nil]
        exact Run.nil _
  | cons e es ih =>
      have hsplit : before ++ e :: es = before ++ [e] ++ es := by simp
      rw [hsplit]
      constructor
      · intro h
        cases h with
        | @cons _ m _ _ _ hstep hok tail =>
            obtain ⟨hstep, hpast⟩ := noted_eq_some.mp hstep
            obtain ⟨m, between⟩ := m
            obtain rfl : between = before ++ [e] := hpast
            obtain ⟨hrun, hafter⟩ := ih.mp tail
            exact ⟨Run.cons hstep hok hrun, hafter⟩
      · rintro ⟨h, hafter⟩
        cases h with
        | @cons _ m _ _ _ hstep hok tail =>
            have hnoted : Transition.noted step past (s, before) e = some (m, before ++ [e]) :=
              noted_eq_some.mpr ⟨hstep, rfl⟩
            exact Run.cons hnoted hok (ih.mpr ⟨tail, hafter⟩)

/-- **Invariant rule, with the past.**  As `Run.invariant`, where what holds depends on the events
so far. -/
theorem Run.invariant_past (Inv : List ε → σ → Prop) {s s' : σ} {es : List ε}
    (h : Run step ok s es s') (hs : Inv [] s)
    (hpres : ∀ before s e s', Inv before s → ok s e → step s e = some s' →
      Inv (before ++ [e]) s') : Inv es s' := by
  have hwhole : Run (Transition.noted step past) (fun p => ok p.1) (s, []) es (s', es) :=
    past_iff.mpr ⟨h, rfl⟩
  refine hwhole.invariant (fun p => Inv p.2 p.1) hs ?_
  rintro ⟨s, before⟩ e ⟨s', after⟩ hinv hok hstep
  obtain ⟨hstep, rfl⟩ := noted_eq_some.mp hstep
  exact hpres before s e s' hinv hok hstep

/-- **Exact side condition, with the past.**  As `Run.exact`, where what is good depends on the
events so far. -/
theorem Run.exact_past (Inv Good : List ε → σ → Prop) {s s' : σ} {es : List ε}
    (h : Run step anyStep s es s') (hs : Inv [] s) (hgood : Good [] s)
    (hpres : ∀ before s e s', Inv before s → ok s e → step s e = some s' →
      Inv (before ++ [e]) s')
    (hexact : ∀ before s e s', Inv before s → Good before s → step s e = some s' →
      (Good (before ++ [e]) s' ↔ ok s e)) :
    (∀ fs gs m, es = fs ++ gs → Run step anyStep s fs m → Good fs m) ↔ Run step ok s es s' := by
  have hwhole : Run (Transition.noted step past) anyStep (s, []) es (s', es) :=
    (@past_iff _ _ step anyStep _ _ _ _ _).mpr ⟨h, rfl⟩
  have hboth := @Run.exact (σ × List ε) ε (Transition.noted step past) (fun p => ok p.1)
    (fun p => Inv p.2 p.1) (fun p => Good p.2 p.1) _ _ _ hwhole hs hgood ?_ ?_
  · rw [past_iff, and_iff_left (List.nil_append es).symm] at hboth
    rw [← hboth]
    constructor
    · rintro hall fs gs ⟨m, fs'⟩ heq hfs
      obtain ⟨hfs, rfl⟩ := (@past_iff _ _ step anyStep _ _ _ _ _).mp hfs
      exact hall _ gs m heq hfs
    · intro hall fs gs m heq hfs
      exact hall fs gs (m, fs) heq ((@past_iff _ _ step anyStep _ _ _ _ _).mpr ⟨hfs, rfl⟩)
  · rintro ⟨s, before⟩ e ⟨s', after⟩ hinv hok hstep
    obtain ⟨hstep, rfl⟩ := noted_eq_some.mp hstep
    exact hpres before s e s' hinv hok hstep
  · rintro ⟨s, before⟩ e ⟨s', after⟩ hinv hg hstep
    obtain ⟨hstep, rfl⟩ := noted_eq_some.mp hstep
    exact hexact before s e s' hinv hg hstep

/-- The same event in two states of a system. -/
def twinStep (step : σ → ε → Option σ) (p : σ × σ) (e : ε) : Option (σ × σ) :=
  match step p.1 e, step p.2 e with
  | some s, some t => some (s, t)
  | _, _ => none

/-- Two steps at once are a step of each. -/
theorem twinStep_eq_some {p q : σ × σ} {e : ε} :
    twinStep step p e = some q ↔ step p.1 e = some q.1 ∧ step p.2 e = some q.2 := by
  unfold twinStep
  cases step p.1 e with
  | none => simp
  | some s =>
      cases step p.2 e with
      | none => simp
      | some t => simp [Prod.ext_iff]

/-- Related results are there on both sides, or on none. -/
theorem rel_cases {α β : Type} {R : α → β → Prop} {a : Option α} {b : Option β}
    (h : Option.Rel R a b) :
    (a = none ∧ b = none) ∨ ∃ x y, a = some x ∧ b = some y ∧ R x y := by
  cases h with
  | none => exact Or.inl ⟨rfl, rfl⟩
  | some hxy => exact Or.inr ⟨_, _, rfl, rfl, hxy⟩

/-- Choices that agree, between related values. -/
theorem ite_rel {α β : Type} (R : α → β → Prop) {p q : Prop} [Decidable p] [Decidable q]
    {a b : α} {a' b' : β} (hpq : p ↔ q) (hpos : p → R a a') (hneg : ¬ p → R b b') :
    R (if p then a else b) (if q then a' else b') := by
  by_cases hp : p
  · rw [if_pos hp, if_pos (hpq.mp hp)]
    exact hpos hp
  · rw [if_neg hp, if_neg (fun hq => hp (hpq.mpr hq))]
    exact hneg hp

/-- Two steps under guards that agree. -/
theorem rel_ite {α β : Type} {R : α → β → Prop} {p q : Prop} [Decidable p] [Decidable q]
    {a : Option α} {b : Option β} (hpq : p ↔ q) (h : p → Option.Rel R a b) :
    Option.Rel R (if p then a else none) (if q then b else none) :=
  ite_rel (Option.Rel R) hpq h (fun _ => .none)

/-- Related results stay related under functions that keep the relation. -/
theorem rel_map {α β γ δ : Type} {R : α → β → Prop} {S : γ → δ → Prop} {a : Option α}
    {b : Option β} {f : α → γ} {g : β → δ} (h : Option.Rel R a b)
    (hfg : ∀ x y, R x y → S (f x) (g y)) : Option.Rel S (a.map f) (b.map g) := by
  rcases rel_cases h with ⟨rfl, rfl⟩ | ⟨x, y, rfl, rfl, hxy⟩
  · exact .none
  · exact .some (hfg x y hxy)

/-- **Simulation rule.**  Two systems whose steps agree do the same along every list of events. -/
theorem exec_rel {step₂ : τ → ε → Option τ} {R : σ → τ → Prop}
    (hstep : ∀ s t e, R s t → Option.Rel R (step s e) (step₂ t e)) {s : σ} {t : τ} (h : R s t)
    (es : List ε) : Option.Rel R (exec step s es) (exec step₂ t es) := by
  induction es generalizing s t with
  | nil => exact .some h
  | cons e es ih =>
      rcases rel_cases (hstep s t e h) with ⟨hleft, hright⟩ | ⟨s', t', hleft, hright, hnext⟩
      · simp only [exec, hleft, hright]
        exact .none
      · simp only [exec, hleft, hright]
        exact ih hnext

/-- **Lockstep rule.**  A relation between states that the same event keeps holds
along the same events. -/
theorem Run.lockstep (R : σ → σ → Prop) {ok₂ : σ × σ → ε → Prop}
    (hkeep : ∀ s t e, R s t → ok₂ (s, t) e → Option.Rel R (step s e) (step t e))
    {p q : σ × σ} {es : List ε} (h : Run (twinStep step) ok₂ p es q) (hp : R p.1 p.2) :
    R q.1 q.2 := by
  refine h.invariant (fun p => R p.1 p.2) hp ?_
  intro p e q hR hok hstep
  obtain ⟨hleft, hright⟩ := twinStep_eq_some.mp hstep
  rcases rel_cases (hkeep p.1 p.2 e hR hok) with ⟨hnone, _⟩ | ⟨s, t, hs, ht, hnext⟩
  · cases hleft.symm.trans hnone
  · obtain rfl := Option.some.inj (hleft.symm.trans hs)
    obtain rfl := Option.some.inj (hright.symm.trans ht)
    exact hnext

end Transition
