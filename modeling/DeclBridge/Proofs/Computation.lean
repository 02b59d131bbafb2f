import Mathlib.Data.List.Forall2

/-!
# Computations with a state that may fail

Loading, resolution and output are computations of one form: they have a state and may fail, and the
state is there also after a failure.  `Triple P x Q F` says of such a computation that, started
where `P` holds, it ends with a result and a state that satisfy `Q`, or with a failure and a state
that satisfy `F`.  There is one rule for each way to build a computation.

`Keeps I F x` is the special case of an invariant: `x` keeps `I`, and fails only as `F` allows.
`Marks I M x` says that, whatever else is done before and after, `x` leaves the mark `M` behind.
`Parallel P F u x x'` is about two computations: they end alike wherever their states are related.
-/

namespace DeclBridge

open List MonadExcept

variable {ε σ α β : Type} {a : α} {b : β} {r : Except ε α}

theorem eq_ok_of_map {f : α → β} (h : r.map f = .ok b) : ∃ a, r = .ok a ∧ f a = b := by
  cases r with
  | error e => cases h
  | ok a =>
    cases h
    exact ⟨a, rfl, rfl⟩

theorem eq_ok_of_bind {f : α → Except ε β} (h : r >>= f = .ok b) :
    ∃ a, r = .ok a ∧ f a = .ok b := by
  cases r with
  | error e => cases h
  | ok a => exact ⟨a, rfl, h⟩

theorem eq_ok_of_toOption (h : r.toOption = some a) : r = .ok a := by
  cases r with
  | error e => cases h
  | ok a' =>
    cases h
    rfl

/-- A test of what is returned is evaluated without the result being written out. -/
theorem exists_ok_of_any {P : α → Prop} [DecidablePred P]
    (h : r.toOption.any (P ·) = true) : ∃ a, r = .ok a ∧ P a := by
  obtain ⟨a, ha, hP⟩ := (Option.any_eq_true _ _).1 h
  exact ⟨a, eq_ok_of_toOption ha, of_decide_eq_true hP⟩

theorem eq_ok_of_mapError {δ : Type} {f : ε → δ}
    (h : r.mapError f = .ok a) : r = .ok a := by
  cases r with
  | error e => cases h
  | ok a' =>
    cases h
    rfl

theorem forall_of_forall₂ {l : List α} {bs : List β} {R : β → Prop}
    (h : List.Forall₂ (fun _ b => R b) l bs) : ∀ b ∈ bs, R b := by
  induction h with
  | nil => exact forall_mem_nil _
  | cons hb _ ih => exact forall_mem_cons.2 ⟨hb, ih⟩

theorem mapM_eq_ok {f : α → Except ε β} {l : List α} {bs : List β} :
    l.mapM f = .ok bs ↔ List.Forall₂ (fun a b => f a = .ok b) l bs := by
  induction l generalizing bs with
  | nil =>
    rw [mapM_nil, forall₂_nil_left_iff]
    exact ⟨fun h => (Except.ok.inj h).symm, fun h => congrArg Except.ok h.symm⟩
  | cons a l ih =>
    rw [mapM_cons, forall₂_cons_left_iff]
    cases ha : f a with
    | error e =>
      refine ⟨fun h => (by cases h), ?_⟩
      rintro ⟨_, _, h, _⟩
      cases h
    | ok b =>
      constructor
      · intro h
        obtain ⟨bs', hbs', rfl⟩ := eq_ok_of_map (f := (b :: ·)) h
        exact ⟨b, bs', rfl, ih.1 hbs', rfl⟩
      · rintro ⟨_, bs', ⟨⟩, hbs', rfl⟩
        rw [ih.2 hbs']
        rfl

/-- A computation with state `σ` that may fail with an `ε`. -/
abbrev Computation (ε σ α : Type) := ExceptT ε (StateM σ) α

variable {x : Computation ε σ α} {f : α → Computation ε σ β}

namespace Computation

variable {s s' : σ} {c : ε → Computation ε σ α} {e : ε}

/-- What follows starts in the state that is left. -/
theorem run_bind_ok (h : x.run.run s = (.ok a, s')) : (x >>= f).run.run s = (f a).run.run s' := by
  rw [ExceptT.run_bind, StateT.run_bind, h]
  rfl

theorem run_bind_error
    (h : x.run.run s = (.error e, s')) : (x >>= f).run.run s = (.error e, s') := by
  rw [ExceptT.run_bind, StateT.run_bind, h]
  rfl

/-- A computation with a part before it ends with a result only if both do. -/
theorem bind_eq_ok (h : (x >>= f).run.run s = (.ok b, s')) :
    ∃ a s₁, x.run.run s = (.ok a, s₁) ∧ (f a).run.run s₁ = (.ok b, s') := by
  rcases hx : x.run.run s with ⟨e | a, s₁⟩
  · rw [run_bind_error hx] at h
    exact absurd (Prod.mk.inj h).1 (by simp)
  · exact ⟨a, s₁, rfl, by rw [← h, run_bind_ok hx]⟩

theorem run_tryCatch_ok
    (h : x.run.run s = (.ok a, s')) : (tryCatch x c).run.run s = (.ok a, s') := by
  simp only [tryCatch, tryCatchThe, MonadExceptOf.tryCatch, ExceptT.tryCatch,
    ExceptT.run_mk, StateT.run_bind]
  rw [show StateT.run x s = (Except.ok a, s') from h]
  rfl

/-- A handler starts in the state that the failure leaves. -/
theorem run_tryCatch_error (h : x.run.run s = (.error e, s')) :
    (tryCatch x c).run.run s = (c e).run.run s' := by
  simp only [tryCatch, tryCatchThe, MonadExceptOf.tryCatch, ExceptT.tryCatch,
    ExceptT.run_mk, StateT.run_bind]
  rw [show StateT.run x s = (Except.error e, s') from h]
  rfl

theorem forM_append_eq_ok {l₁ l₂ : List α} {f : α → Computation ε σ PUnit}
    (h : ((l₁ ++ l₂).forM f).run.run s = (.ok ⟨⟩, s')) :
    ∃ s₁, (l₁.forM f).run.run s = (.ok ⟨⟩, s₁) ∧ (l₂.forM f).run.run s₁ = (.ok ⟨⟩, s') := by
  induction l₁ generalizing s with
  | nil => exact ⟨s, rfl, h⟩
  | cons a l₁ ih =>
    obtain ⟨_, s₁, ha, hrest⟩ := bind_eq_ok (x := f a) (f := fun _ => (l₁ ++ l₂).forM f) h
    obtain ⟨s₂, h₁, h₂⟩ := ih hrest
    refine ⟨s₂, ?_, h₂⟩
    show (f a >>= fun _ => l₁.forM f).run.run s = _
    rw [run_bind_ok ha]
    exact h₁

end Computation

/-- Started where `P` holds, `x` ends as `Q` says, or fails as `F` says. -/
def Triple (P : σ → Prop) (x : Computation ε σ α) (Q : α → σ → Prop) (F : ε → σ → Prop) : Prop :=
  ∀ s, P s →
    match x.run.run s with
    | (.ok a, s') => Q a s'
    | (.error f, s') => F f s'

namespace Triple

variable {P P' : σ → Prop} {Q Q' : α → σ → Prop} {R : β → σ → Prop} {F F' : ε → σ → Prop}

variable {l : List α} {s s' s₀ : σ}

theorem ok (h : Triple P x Q F) (hs : P s) (hx : x.run.run s = (.ok a, s')) : Q a s' := by
  have := h s hs
  rw [hx] at this
  exact this

theorem error (h : Triple P x Q F) {f : ε} (hs : P s)
    (hx : x.run.run s = (.error f, s')) : F f s' := by
  have := h s hs
  rw [hx] at this
  exact this

/-- The rule of consequence. -/
theorem weaken (h : Triple P x Q F) (hP : ∀ s, P' s → P s)
    (hQ : ∀ a s, Q a s → Q' a s) (hF : ∀ f s, F f s → F' f s) : Triple P' x Q' F' := by
  intro s hs
  have := h s (hP s hs)
  rcases hx : x.run.run s with ⟨_ | _, s'⟩ <;> rw [hx] at this
  · exact hF _ _ this
  · exact hQ _ _ this

theorem pre (h : Triple P x Q F) (hP : ∀ s, P' s → P s) : Triple P' x Q F :=
  h.weaken hP (fun _ _ h => h) fun _ _ h => h

/-- What holds of every start holds of a given one. -/
theorem start (h : Triple P x Q F) (hs : P s₀) : Triple (· = s₀) x Q F :=
  h.pre fun _ heq => heq ▸ hs

theorem post (h : Triple P x Q F) (hQ : ∀ a s, Q a s → Q' a s) : Triple P x Q' F :=
  h.weaken (fun _ h => h) hQ fun _ _ h => h

/-- Two postconditions of one run hold together. -/
theorem and (h : Triple P x Q F) (h' : Triple P x Q' fun _ _ => True) :
    Triple P x (fun a s => Q a s ∧ Q' a s) F := by
  intro s hs
  rcases hx : x.run.run s with ⟨_ | _, s'⟩
  · exact h.error hs hx
  · exact ⟨h.ok hs hx, h'.ok hs hx⟩

theorem all {ι : Sort*} {Q : ι → α → σ → Prop} (h : ∀ i, Triple P x (Q i) (fun _ _ => True)) :
    Triple P x (fun a s => ∀ i, Q i a s) (fun _ _ => True) := by
  intro s hs
  rcases hx : x.run.run s with ⟨_ | a, s'⟩
  · trivial
  · exact fun i => (h i).ok hs hx

/-- The state at the start may be fixed. -/
theorem assume (h : ∀ s₀, P s₀ → Triple (fun s => s = s₀) x Q F) : Triple P x Q F :=
  fun s hs => h s hs s rfl

/-- The strongest postcondition. -/
theorem of_run : Triple (· = s₀) x (fun a s => x.run.run s₀ = (.ok a, s)) (fun _ _ => True) := by
  intro s hs
  rcases hx : x.run.run s with ⟨_ | a, s'⟩
  · trivial
  · exact hs ▸ hx

theorem pure (h : ∀ s, P s → Q a s) : Triple P (Pure.pure a : Computation ε σ α) Q F :=
  fun s hs => h s hs

/-- The rule of sequence. -/
theorem bind (hx : Triple P x Q F) (hf : ∀ a, Triple (Q a) (f a) R F) : Triple P (x >>= f) R F := by
  intro s hs
  have h := hx s hs
  rcases hrun : x.run.run s with ⟨failure | a, s'⟩ <;> rw [hrun] at h
  · rw [Computation.run_bind_error hrun]
    exact h
  · rw [Computation.run_bind_ok hrun]
    exact hf a s' h

theorem throw {e : ε} (h : ∀ s, P s → F e s) : Triple P (throw e : Computation ε σ α) Q F :=
  fun s hs => h s hs

theorem get {Q : σ → σ → Prop} (h : ∀ s, P s → Q s s) :
    Triple P (MonadState.get : Computation ε σ σ) Q F :=
  fun s hs => h s hs

/-- What follows may refer to the state that was read. -/
theorem get_bind {f : σ → Computation ε σ β} (h : ∀ s, P s → Triple (· = s) (f s) R F) :
    Triple P (MonadState.get >>= f) R F :=
  fun s hs => h s hs s rfl

theorem update {Q : PUnit → σ → Prop} {g : σ → σ} (h : ∀ s, P s → Q ⟨⟩ (g s)) :
    Triple P (modify g : Computation ε σ PUnit) Q F :=
  fun s hs => h s hs

/-- After an update of a known state the state is known. -/
theorem update_bind {g : σ → σ} {f : PUnit → Computation ε σ β} (h : Triple (· = g s₀) (f ⟨⟩) R F) :
    Triple (· = s₀) (modify g >>= f) R F :=
  .bind (Q := fun _ s => s = g s₀) (.update fun _ hs => hs ▸ rfl) fun _ => h

/-- A result that is computed without the state. -/
theorem result (hok : ∀ a, r = .ok a → ∀ s, P s → Q a s)
    (herror : ∀ f, r = .error f → ∀ s, P s → F f s) :
    Triple P (ExceptT.mk (Pure.pure r) : Computation ε σ α) Q F := by
  intro s hs
  cases r with
  | ok a => exact hok a rfl s hs
  | error f => exact herror f rfl s hs

theorem result_bind (hok : ∀ a, r = .ok a → Triple P (f a) R F)
    (herror : ∀ e, r = .error e → ∀ s, P s → F e s) :
    Triple P ((ExceptT.mk (Pure.pure r) : Computation ε σ α) >>= f) R F := by
  intro s hs
  cases r with
  | ok a => exact hok a rfl s hs
  | error e => exact herror e rfl s hs

/-- The handler takes over where the computation fails. -/
theorem tryCatch {c : ε → Computation ε σ α} {G : ε → σ → Prop}
    (hx : Triple P x Q G) (hc : ∀ e, Triple (G e) (c e) Q F) : Triple P (tryCatch x c) Q F := by
  intro s hs
  have h := hx s hs
  rcases hrun : x.run.run s with ⟨failure | a, s'⟩ <;> rw [hrun] at h
  · rw [Computation.run_tryCatch_error hrun]
    exact hc failure s' h
  · rw [Computation.run_tryCatch_ok hrun]
    exact h

/-- The rule of a loop with an invariant. -/
theorem forM {I : σ → Prop} {f : α → Computation ε σ PUnit}
    (h : ∀ a ∈ l, Triple I (f a) (fun _ => I) F) : Triple I (l.forM f) (fun _ => I) F := by
  induction l with
  | nil => exact .pure fun _ hs => hs
  | cons a l ih =>
    show Triple I (f a >>= fun _ => l.forM f) (fun _ => I) F
    exact (h a mem_cons_self).bind fun _ => ih fun b hb => h b (mem_cons_of_mem _ hb)

/-- As `forM`, where the invariant speaks of the members that were passed, and each member may rely
on what was done for them. -/
theorem forM_passed {I : List α → σ → Prop} {f : α → Computation ε σ PUnit}
    (h : ∀ passed a left, l = passed ++ a :: left → ∀ s, (passed.forM f).run.run s₀ = (.ok ⟨⟩, s) →
      I passed s → Triple (· = s) (f a) (fun _ => I (passed ++ [a])) F) (hs₀ : I [] s₀) :
    Triple (· = s₀) (l.forM f) (fun _ => I l) F := by
  induction l generalizing s₀ I with
  | nil => exact .pure fun _ hs => hs ▸ hs₀
  | cons a l ih =>
    show Triple (· = s₀) (f a >>= fun _ => l.forM f) (fun _ => I (a :: l)) F
    have hfirst := h [] a l rfl s₀ rfl hs₀
    refine .bind (hfirst.and of_run) fun _ => Triple.assume fun s₁ hs₁ => ?_
    refine ih (I := fun passed => I (a :: passed)) (fun passed b left heq s hrun hs => ?_) hs₁.1
    refine h (a :: passed) b left (by rw [heq, cons_append]) s ?_ hs
    show (f a >>= fun _ => passed.forM f).run.run s₀ = _
    rw [Computation.run_bind_ok hs₁.2]
    exact hrun

end Triple

/-- `x` keeps `I`, and fails only as `F` allows. -/
abbrev Keeps (I : σ → Prop) (F : ε → Prop) (x : Computation ε σ α) : Prop :=
  Triple I x (fun _ => I) (fun f _ => F f)

namespace Keeps

variable {I : σ → Prop} {F : ε → Prop}

theorem pure (a : α) : Keeps I F (Pure.pure a : Computation ε σ α) :=
  Triple.pure fun _ h => h

theorem bind (hx : Keeps I F x) (hf : ∀ a, Keeps I F (f a)) : Keeps I F (x >>= f) :=
  Triple.bind hx hf

theorem mapM {l : List α} (h : ∀ a ∈ l, Keeps I F (f a)) : Keeps I F (l.mapM f) := by
  induction l with
  | nil =>
    rw [mapM_nil]
    exact pure _
  | cons a l ih =>
    rw [mapM_cons]
    refine (h a mem_cons_self).bind fun b => ?_
    exact (ih fun c hc => h c (mem_cons_of_mem _ hc)).bind fun _ => pure _

end Keeps

/-- `x` keeps `I`, fails only as `F` allows, and its results satisfy `Q`. -/
abbrev Returns (I : σ → Prop) (F : ε → Prop) (x : Computation ε σ α) (Q : α → Prop) : Prop :=
  Triple I x (fun a s => I s ∧ Q a) (fun f _ => F f)

namespace Returns

variable {I : σ → Prop} {F : ε → Prop} {Q : α → Prop} {R : β → Prop}

theorem pure (h : Q a) : Returns I F (Pure.pure a : Computation ε σ α) Q :=
  Triple.pure fun _ hs => ⟨hs, h⟩

/-- What follows may rely on the result, and may say more of the state. -/
theorem bind_triple {R : β → σ → Prop}
    (hx : Returns I F x Q) (hf : ∀ a, Q a → Triple I (f a) R fun f _ => F f) :
    Triple I (x >>= f) R fun f _ => F f :=
  .bind hx fun a => .assume fun _ hs => (hf a hs.2).start hs.1

theorem bind (hx : Returns I F x Q) (hf : ∀ a, Q a → Returns I F (f a) R) : Returns I F (x >>= f) R :=
  hx.bind_triple hf

/-- The results of a loop are related to its items one by one. -/
theorem mapM_forall₂ {l : List α} {R : α → β → Prop}
    (h : ∀ a ∈ l, Returns I F (f a) (R a)) : Returns I F (l.mapM f) (List.Forall₂ R l) := by
  induction l with
  | nil =>
    rw [mapM_nil]
    exact pure .nil
  | cons a l ih =>
    rw [mapM_cons]
    refine (h a mem_cons_self).bind fun b hb => ?_
    refine (ih fun c hc => h c (mem_cons_of_mem _ hc)).bind fun bs hbs => ?_
    exact pure (.cons hb hbs)

theorem mapM {l : List α} (h : ∀ a ∈ l, Returns I F (f a) R) :
    Returns I F (l.mapM f) fun bs => ∀ b ∈ bs, R b :=
  (mapM_forall₂ h).post fun _ _ hbs => ⟨hbs.1, forall_of_forall₂ hbs.2⟩

theorem keeps (hx : Returns I F x Q) : Keeps I F x := hx.post fun _ _ h => h.1

end Returns

theorem Keeps.returns {I : σ → Prop} {F : ε → Prop} (hx : Keeps I F x) : Returns I F x fun _ => True :=
  hx.post fun _ _ h => ⟨h, trivial⟩

/-- `x` keeps `I`, and its results satisfy `Q`. -/
abbrev Gives (I : σ → Prop) (x : Computation ε σ α) (Q : α → Prop) : Prop :=
  Returns I (fun _ => True) x Q

namespace Gives

variable {I : σ → Prop} {Q Q' : α → Prop}

theorem unconditional (x : Computation ε σ α) : Gives (fun _ => True) x fun _ => True := by
  intro s _
  rcases x.run.run s with ⟨_ | _, _⟩ <;> trivial

theorem of_run (h : ∀ s a s', x.run.run s = (.ok a, s') → Q a) : Gives (fun _ => True) x Q := by
  intro s _
  rcases hrun : x.run.run s with ⟨_ | a, s'⟩
  · trivial
  · exact ⟨trivial, h s a s' hrun⟩

theorem of_keeps {F : ε → Prop} (hx : Keeps I F x) : Gives I x fun _ => True :=
  hx.weaken (fun _ h => h) (fun _ _ h => ⟨h, trivial⟩) (fun _ _ _ => trivial)

theorem mono (hx : Gives I x Q) (h : ∀ a, Q a → Q' a) : Gives I x Q' :=
  hx.weaken (fun _ hs => hs) (fun a _ ha => ⟨ha.1, h a ha.2⟩) (fun _ _ h => h)

theorem both (hx : Gives I x Q) (hx' : Gives I x Q') : Gives I x fun a => Q a ∧ Q' a :=
  (Triple.and hx hx').post (fun _ _ h => ⟨h.1.1, h.1.2, h.2.2⟩)

theorem throw {e : ε} : Gives I (throw e : Computation ε σ α) Q :=
  Triple.throw fun _ _ => trivial

theorem result (h : ∀ a, r = .ok a → Q a) :
    Gives I (ExceptT.mk (Pure.pure r) : Computation ε σ α) Q :=
  Triple.result (fun a ha _ hs => ⟨hs, h a ha⟩) fun _ _ _ _ => trivial

end Gives

/-! ## Two runs -/

/-- Two runs end alike: both with a failure, or both with a result, where the second result is `u`
of the first and `P` relates the states. -/
inductive EndsAlike {ε' σ' α' : Type} (P : σ → σ' → Prop) (F : ε → ε' → Prop) (u : α → α') :
    Except ε α × σ → Except ε' α' × σ' → Prop
  | ok {a : α} {s : σ} {s' : σ'} : P s s' → EndsAlike P F u (.ok a, s) (.ok (u a), s')
  | error {e : ε} {e' : ε'} {s : σ} {s' : σ'} :
    F e e' → EndsAlike P F u (.error e, s) (.error e', s')

/-- Started where `P` relates the states, `x` and `x'` end alike. -/
def Parallel {ε' σ' α' : Type} (P : σ → σ' → Prop) (F : ε → ε' → Prop) (u : α → α')
    (x : Computation ε σ α) (x' : Computation ε' σ' α') : Prop :=
  ∀ s s', P s s' → EndsAlike P F u (x.run.run s) (x'.run.run s')

namespace Parallel

variable {ε' σ' α' β' : Type} {P : σ → σ' → Prop} {F : ε → ε' → Prop} {u : α → α'} {v : β → β'}
  {x' : Computation ε' σ' α'} {f' : α' → Computation ε' σ' β'}

theorem pure {a' : α'} (h : a' = u a) :
    Parallel P F u (Pure.pure a : Computation ε σ α) (Pure.pure a' : Computation ε' σ' α') := by
  subst h
  exact fun _ _ hs => .ok hs

/-- Two failures end alike if they are related. -/
theorem throw {e : ε} {e' : ε'} (h : F e e') : Parallel P F u (throw e : Computation ε σ α)
      (throw e' : Computation ε' σ' α') :=
  fun _ _ _ => .error h

/-- What follows may rely on what is known of the first computation. -/
theorem bind_gives {I : σ → Prop} {Q : α → Prop} (hx : Parallel P F u x x') (hgives : Gives I x Q)
    (hI : ∀ s s', P s s' → I s) (hf : ∀ a, Q a → Parallel P F v (f a) (f' (u a))) :
    Parallel P F v (x >>= f) (x' >>= f') := by
  intro s s' hs
  have hends := hx s s' hs
  have hQ := hgives s (hI s s' hs)
  generalize hrun : x.run.run s = r, hrun' : x'.run.run s' = r' at hends hQ
  cases hends with
  | ok hP =>
    rw [Computation.run_bind_ok hrun, Computation.run_bind_ok hrun']
    exact hf _ hQ.2 _ _ hP
  | error hF =>
    rw [Computation.run_bind_error hrun, Computation.run_bind_error hrun']
    exact .error hF

theorem bind (hx : Parallel P F u x x') (hf : ∀ a, Parallel P F v (f a) (f' (u a))) :
    Parallel P F v (x >>= f) (x' >>= f') :=
  hx.bind_gives (Gives.unconditional x) (fun _ _ _ => trivial) fun a _ => hf a

theorem get_bind {f : σ → Computation ε σ β} {f' : σ' → Computation ε' σ' β'}
    (h : ∀ s s', P s s' → EndsAlike P F v ((f s).run.run s) ((f' s').run.run s')) :
    Parallel P F v (MonadState.get >>= f) (MonadState.get >>= f') :=
  fun s s' hs => h s s' hs

theorem update {g : σ → σ} {g' : σ' → σ'} (h : ∀ s s', P s s' → P (g s) (g' s')) :
    Parallel P F id (modify g : Computation ε σ PUnit) (modify g' : Computation ε' σ' PUnit) :=
  fun s s' hs => .ok (h s s' hs)

theorem result {r' : Except ε' α'} (hok : ∀ a, r = .ok a → r' = .ok (u a))
    (herror : ∀ e, r = .error e → ∃ e', r' = .error e' ∧ F e e') :
    Parallel P F u (ExceptT.mk (Pure.pure r) : Computation ε σ α)
      (ExceptT.mk (Pure.pure r') : Computation ε' σ' α') := by
  intro s s' hs
  cases r with
  | ok a =>
    rw [hok a rfl]
    exact .ok hs
  | error e =>
    obtain ⟨e', he', hF⟩ := herror e rfl
    rw [he']
    exact .error hF

theorem mapM {ι ι' : Type} {w : ι → ι'} {l : List ι} {f : ι → Computation ε σ α}
    {f' : ι' → Computation ε' σ' α'} (h : ∀ i ∈ l, Parallel P F u (f i) (f' (w i))) :
    Parallel P F (map u) (l.mapM f) ((l.map w).mapM f') := by
  induction l with
  | nil =>
    rw [mapM_nil, map_nil, mapM_nil]
    exact pure rfl
  | cons i l ih =>
    rw [mapM_cons, map_cons, mapM_cons]
    rw [forall_mem_cons] at h
    exact h.1.bind fun _ => (ih h.2).bind fun _ => pure rfl

theorem forM {ι ι' : Type} {w : ι → ι'} {l : List ι} {f : ι → Computation ε σ PUnit}
    {f' : ι' → Computation ε' σ' PUnit} (h : ∀ i ∈ l, Parallel P F id (f i) (f' (w i))) :
    Parallel P F id (l.forM f) ((l.map w).forM f') := by
  induction l with
  | nil => exact pure rfl
  | cons i l ih =>
    rw [forall_mem_cons] at h
    show Parallel P F id (f i >>= fun _ => l.forM f) (f' (w i) >>= fun _ => (l.map w).forM f')
    exact h.1.bind fun _ => ih h.2

end Parallel

/-- `x` keeps `I`, where the mark `M` has been left and where it has not. -/
structure Respects (I M : σ → Prop) (x : Computation ε σ α) : Prop where
  unmarked : Keeps I (fun _ => True) x
  marked : Keeps (fun s => I s ∧ M s) (fun _ => True) x

namespace Respects

variable {I M : σ → Prop}

theorem pure (a : α) : Respects I M (Pure.pure a : Computation ε σ α) :=
  ⟨Keeps.pure a, Keeps.pure a⟩

theorem throw (e : ε) : Respects I M (throw e : Computation ε σ α) :=
  ⟨Triple.throw fun _ _ => trivial, Triple.throw fun _ _ => trivial⟩

theorem bind (hx : Respects I M x) (hf : ∀ a, Respects I M (f a)) : Respects I M (x >>= f) :=
  ⟨hx.unmarked.bind fun a => (hf a).unmarked, hx.marked.bind fun a => (hf a).marked⟩

theorem mapM {l : List α} (h : ∀ a ∈ l, Respects I M (f a)) : Respects I M (l.mapM f) :=
  ⟨Keeps.mapM fun a ha => (h a ha).unmarked, Keeps.mapM fun a ha => (h a ha).marked⟩

theorem forM {l : List α} {f : α → Computation ε σ PUnit} (h : ∀ a ∈ l, Respects I M (f a)) :
    Respects I M (l.forM f) :=
  ⟨Triple.forM fun a ha => (h a ha).unmarked, Triple.forM fun a ha => (h a ha).marked⟩

theorem never (x : Computation ε σ α) : Respects (fun _ => True) (fun _ => False) x := by
  refine ⟨fun s _ => ?_, fun s h => h.2.elim⟩
  rcases x.run.run s with ⟨_ | _, _⟩ <;> trivial

end Respects

/-- `x` keeps `I`, and leaves the mark `M` wherever it has a result.  What leaves a mark that is
never there has no result. -/
abbrev Marks (I M : σ → Prop) (x : Computation ε σ α) : Prop :=
  Triple I x (fun _ s => I s ∧ M s) (fun _ _ => True)

namespace Marks

variable {I M : σ → Prop}

/-- A mark is left by what comes first. -/
theorem bind (hx : Marks I M x) (hf : ∀ a, Respects I M (f a)) : Marks I M (x >>= f) :=
  Triple.bind hx fun a => (hf a).marked

/-- A mark is left by what comes after. -/
theorem after (hx : Respects I M x) (hf : ∀ a, Marks I M (f a)) : Marks I M (x >>= f) :=
  Triple.bind hx.unmarked hf

theorem after_result (hf : ∀ a, r = .ok a → Marks I M (f a)) :
    Marks I M (ExceptT.mk (Pure.pure r) >>= f) := by
  cases r with
  | ok a => exact hf a rfl
  | error e => exact fun _ _ => trivial

/-- A loop leaves the mark of one of its items. -/
theorem mapM {l : List α} (ha : a ∈ l) (h : Marks I M (f a))
    (hl : ∀ b ∈ l, Respects I M (f b)) : Marks I M (l.mapM f) := by
  induction l with
  | nil => exact absurd ha not_mem_nil
  | cons b l ih =>
    rw [mapM_cons]
    rw [forall_mem_cons] at hl
    rcases mem_cons.1 ha with rfl | ha
    · exact h.bind fun _ => (Respects.mapM hl.2).bind fun _ => .pure _
    · exact .after hl.1 fun _ => (ih ha hl.2).bind fun _ => .pure _

theorem forM {l : List α} {f : α → Computation ε σ PUnit} {a : α} (ha : a ∈ l)
    (h : Marks I M (f a)) (hl : ∀ b ∈ l, Respects I M (f b)) : Marks I M (l.forM f) := by
  induction l with
  | nil => exact absurd ha not_mem_nil
  | cons b l ih =>
    show Marks I M (f b >>= fun _ => l.forM f)
    rw [forall_mem_cons] at hl
    rcases mem_cons.1 ha with rfl | ha
    · exact h.bind fun _ => .forM hl.2
    · exact .after hl.1 fun _ => ih ha hl.2

end Marks

end DeclBridge
