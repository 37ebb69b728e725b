import RebornOS.Fallible

/-!
# Computations that leave a trace

This module is independent of the kernel.  A traced computation emits events and
ends with a result or a panic; what it emitted before a panic stays in the
trace.  `Traced.All` says that every event has a property, and its rules follow
the computation.
-/

namespace RebornOS

/-- Events, in order, and how the computation ended. -/
structure Traced (π ε α : Type) where
  events : List ε
  result : Except π α

namespace Traced

variable {π ε α β : Type} {t : Traced π ε α} {f : α → Traced π ε β}

/-- A computation that emits nothing. -/
def lift (x : Except π α) : Traced π ε α :=
  { events := [], result := x }

/-- A panic. -/
def fail (e : π) : Traced π ε α := lift (.error e)

/-- Emit some events and return a value. -/
def emit (events : List ε) (a : α) : Traced π ε α :=
  { events := events, result := .ok a }

/-- The second computation runs when the first one has a result. -/
def bind (t : Traced π ε α) (f : α → Traced π ε β) : Traced π ε β :=
  match t.result with
  | .ok a => { events := t.events ++ (f a).events, result := (f a).result }
  | .error e => { events := t.events, result := .error e }

instance : Monad (Traced π ε) where
  pure a := lift (.ok a)
  bind := bind

/-- Every event satisfies `P`. -/
def All (P : ε → Prop) (t : Traced π ε α) : Prop := ∀ x ∈ t.events, P x

@[simp] theorem result_lift
    (x : Except π α) : (lift x : Traced π ε α).result = x :=
  rfl

@[simp] theorem result_pure
    (a : α) : (pure a : Traced π ε α).result = .ok a :=
  rfl

@[simp] theorem result_fail
    (e : π) : (fail e : Traced π ε α).result = .error e :=
  rfl

@[simp] theorem result_emit
    (events : List ε) (a : α) : (emit events a : Traced π ε α).result = .ok a :=
  rfl

/-- Without the trace, a sequence is the sequence of the results. -/
@[simp] theorem result_bind
    (t : Traced π ε α) (f : α → Traced π ε β) :
    (t >>= f).result = t.result >>= fun a => (f a).result := by
  show (bind t f).result = _
  unfold bind
  cases t.result with
  | ok a =>
      rfl
  | error e =>
      rfl

variable {P : ε → Prop}

@[simp] theorem all_lift
    (x : Except π α) : All P (lift x : Traced π ε α) :=
  fun _ h => absurd h List.not_mem_nil

@[simp] theorem all_pure
    (a : α) : All P (pure a : Traced π ε α) :=
  all_lift _

@[simp] theorem all_fail
    (e : π) : All P (fail e : Traced π ε α) :=
  all_lift _

@[simp] theorem all_emit
    (events : List ε) (a : α) :
    All P (emit events a : Traced π ε α) ↔ ∀ x ∈ events, P x :=
  Iff.rfl

/-- The events of a sequence are those of the first part and, if it has a
result, those of the second. -/
theorem all_bind : All P (t >>= f) ↔ All P t ∧ ∀ a, t.result = .ok a → All P (f a) := by
  show All P (bind t f) ↔ _
  unfold bind
  cases hres : t.result with
  | ok a =>
      constructor
      · intro h
        refine ⟨fun x hx => h x (List.mem_append_left _ hx), ?_⟩
        rintro a' ha' x hx
        cases ha'
        exact h x (List.mem_append_right _ hx)
      · rintro ⟨hfirst, hsecond⟩ x hx
        rcases List.mem_append.mp hx with hx | hx
        · exact hfirst x hx
        · exact hsecond a rfl x hx
  | error e =>
      constructor
      · intro h
        exact ⟨h, fun a ha => by cases ha⟩
      · exact fun h => h.1

/-- After events that all satisfy `P`, only the rest counts. -/
theorem all_emit_bind
    {events : List ε} {a : α} :
    All P ((emit events a : Traced π ε α) >>= f) ↔
      (∀ x ∈ events, P x) ∧ All P (f a) := by
  rw [all_bind]
  constructor
  · rintro ⟨hevents, hrest⟩
    exact ⟨hevents, hrest a rfl⟩
  · rintro ⟨hevents, hrest⟩
    refine ⟨hevents, ?_⟩
    rintro a' ha'
    cases ha'
    exact hrest

/-- A branch counts where it is taken. -/
theorem all_ite
    {c : Prop} [Decidable c] {t' : Traced π ε α} :
    All P (if c then t else t') ↔ (c → All P t) ∧ (¬ c → All P t') := by
  split_ifs with h <;> simp [h]

@[ext] theorem ext
    {t' : Traced π ε α} (hevents : t.events = t'.events)
    (hresult : t.result = t'.result) : t = t' := by
  cases t
  cases t'
  simp only at hevents hresult
  rw [hevents, hresult]

instance : LawfulMonad (Traced π ε) :=
  LawfulMonad.mk' _
    (by
      rintro α ⟨events, x | a⟩
      · rfl
      · exact ext (List.append_nil events) rfl)
    (fun _ _ => rfl)
    (by
      rintro α β γ ⟨events, e | a⟩ f g
      · rfl
      · show bind (bind _ f) g = bind _ (fun a => bind (f a) g)
        simp only [bind]
        cases (f a).result with
        | error e =>
            rfl
        | ok b =>
            exact ext (List.append_assoc _ _ _) rfl)

section Returns

/-- The computation returns `a`, and every event satisfies `P`. -/
structure Returns (P : ε → Prop) (t : Traced π ε α) (a : α) : Prop where
  result : t.result = .ok a
  all : All P t

variable {a : α} {b : β}

theorem Returns.pure
    (a : α) : Returns P (Pure.pure a : Traced π ε α) a :=
  ⟨rfl, all_pure a⟩

theorem Returns.emit
    {events : List ε} (h : ∀ x ∈ events, P x) (a : α) :
    Returns P (emit events a : Traced π ε α) a :=
  ⟨rfl, h⟩

theorem Returns.emit_one
    {x : ε} (h : P x) (a : α) : Returns P (Traced.emit [x] a : Traced π ε α) a :=
  Returns.emit (List.forall_mem_singleton.mpr h) a

theorem Returns.bind
    (h : Returns P t a) (hf : Returns P (f a) b) : Returns P (t >>= f) b where
  result := by
    rw [result_bind, h.result]
    exact hf.result
  all := by
    rw [all_bind]
    refine ⟨h.all, fun a' ha' => ?_⟩
    obtain rfl : a = a' := Except.ok.inj (h.result.symm.trans ha')
    exact hf.all

theorem Returns.mono
    {Q : ε → Prop} (h : Returns P t a) (hPQ : ∀ x, P x → Q x) : Returns Q t a where
  result := h.result
  all x hx := hPQ x (h.all x hx)

/-- The result of a computation that cannot panic. -/
def value (t : Traced Empty ε α) : α :=
  match t.result with
  | .ok a => a
  | .error e => e.elim

theorem Returns.value_eq
    {t : Traced Empty ε α} (h : Returns P t a) : t.value = a := by
  rw [value, h.result]

end Returns

section Sequential

/-- A property that a sequence has if and only if the parts that run have it. -/
structure Sequential (G : ∀ {α : Type}, Traced π ε α → Prop) : Prop where
  pure : ∀ {α : Type} (a : α), G (Pure.pure a)
  bind : ∀ {α β : Type} (t : Traced π ε α) (f : α → Traced π ε β),
    G (t >>= f) ↔ G t ∧ ∀ a, t.result = .ok a → G (f a)

theorem sequential_all
    (P : ε → Prop) : Sequential (π := π) (All P) :=
  ⟨fun a => all_pure a, fun _ _ => all_bind⟩

/-- Not to end with a given panic is such a property. -/
theorem sequential_result_ne
    (e : π) : Sequential (ε := ε) (fun t => t.result ≠ .error e) := by
  constructor
  · simp
  · intro α β t f
    rw [result_bind]
    cases t.result with
    | error e' =>
        simp [Bind.bind, Except.bind]
    | ok a =>
        simp [Bind.bind, Except.bind]

/-- And to end with no panic but those of a kind is one. -/
theorem sequential_panics
    (Q : π → Prop) : Sequential (ε := ε) (fun t => ∀ e, t.result = .error e → Q e) := by
  constructor
  · simp
  · intro α β t f
    rw [result_bind]
    cases t.result with
    | error e' =>
        simp [Bind.bind, Except.bind]
    | ok a =>
        simp [Bind.bind, Except.bind]

variable {G : ∀ {α : Type}, Traced π ε α → Prop}

/-- What follows without emitting anything does not matter. -/
theorem Sequential.bind_pure
    (hG : Sequential (@G)) (t : Traced π ε α) (f : α → β) :
    G (t >>= fun a => Pure.pure (f a)) ↔ G t := by
  rw [hG.bind]
  exact and_iff_left (fun a _ => hG.pure (f a))

end Sequential

section Cut

variable {e : π} {t' : Traced π ε α}

/-- `t` is `t'`, or `t'` cut short by the panic `e`. -/
def CutBy (e : π) (t t' : Traced π ε α) : Prop :=
  t = t' ∨ (t.result = .error e ∧ t.events <+: t'.events)

theorem CutBy.refl
    (e : π) (t : Traced π ε α) : CutBy e t t :=
  Or.inl rfl

theorem CutBy.fail
    (e : π) (t : Traced π ε α) : CutBy e (.fail e) t :=
  Or.inr ⟨rfl, List.nil_prefix⟩

/-- A sequence is cut short where one of its parts is. -/
theorem CutBy.bind
    {f' : α → Traced π ε β} (h : CutBy e t t') (hf : ∀ a, CutBy e (f a) (f' a)) :
    CutBy e (t >>= f) (t' >>= f') := by
  show CutBy e (Traced.bind t f) (Traced.bind t' f')
  unfold Traced.bind
  rcases h with rfl | ⟨hend, hpre⟩
  · cases t.result with
    | error e' =>
        exact Or.inl rfl
    | ok a =>
        rcases hf a with heq | ⟨hend, hpre⟩
        · left
          simp only [heq]
        · right
          exact ⟨hend, List.prefix_append_right_inj _ |>.mpr hpre⟩
  · right
    rw [hend]
    refine ⟨rfl, hpre.trans ?_⟩
    cases t'.result with
    | error e' =>
        exact List.prefix_rfl
    | ok a =>
        exact List.prefix_append _ _

/-- What holds of every event holds of every event before the cut. -/
theorem CutBy.all
    (h : CutBy e t t') (hall : All P t') : All P t := by
  rcases h with rfl | ⟨_, hpre⟩
  · exact hall
  · exact fun x hx => hall x (hpre.subset hx)

/-- A computation that ended otherwise was not cut. -/
theorem CutBy.eq_of_ne
    (h : CutBy e t t') (hne : t.result ≠ .error e) : t = t' :=
  h.resolve_right (fun hcut => hne hcut.1)

end Cut

end Traced

end RebornOS
