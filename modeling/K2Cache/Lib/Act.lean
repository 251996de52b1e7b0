import Mathlib

/-!
# Actions: state with exceptions

An action runs on a state and returns a value or throws; in both cases it leaves
a state behind, as an object a method threw from is still there. Reasoning is by
two kinds of facts.

* `Keeps I x`: whatever `x` does, thrown or not, it preserves `I`.
* equations `x s = (.ok a, s')`, composed by `bind_ok`; `forEach_cases` is the
  invariant rule of a loop, `forEach_ok` that of a loop that never throws.
-/

namespace Lib

/-- An action on the state `σ` that returns an `α` or throws an `ε`. -/
def Act (ε σ α : Type) := σ → Except ε α × σ

namespace Act

variable {ε σ τ α β : Type}

def pure (a : α) : Act ε σ α := fun s => (.ok a, s)

def throw (e : ε) : Act ε σ α := fun s => (.error e, s)

def bind (x : Act ε σ α) (f : α → Act ε σ β) : Act ε σ β := fun s =>
  match x s with
  | (.ok a, s') => f a s'
  | (.error e, s') => (.error e, s')

instance : Monad (Act ε σ) where
  pure := pure
  bind := bind

def get : Act ε σ σ := fun s => (.ok s, s)

def modify (f : σ → σ) : Act ε σ Unit := fun s => (.ok (), f s)

/-- Runs an action on a part of the state. -/
def focus (view : σ → τ) (put : τ → σ → σ) (x : Act ε τ α) : Act ε σ α := fun s =>
  ((x (view s)).1, put (x (view s)).2 s)

/-- Runs an action for every element of a list, in order. -/
def forEach : List β → (β → Act ε σ Unit) → Act ε σ Unit
  | [], _ => pure ()
  | b :: l, f => bind (f b) fun _ => forEach l f

/-- Runs an action for the elements of a list, until one returns true. -/
def untilTrue : List β → (β → Act ε σ Bool) → Act ε σ Unit
  | [], _ => pure ()
  | b :: l, f => bind (f b) fun stop => if stop then pure () else untilTrue l f

/-- Inserts an element behind those that come before it. -/
def insertBy (before : β → β → Act ε σ Bool) (b : β) : List β → Act ε σ (List β)
  | [] => pure [b]
  | c :: l => bind (before c b) fun first =>
    if first then bind (insertBy before b l) fun l' => pure (c :: l') else pure (b :: c :: l)

/-- Sorts by a comparison that is an action. -/
def sortBy (before : β → β → Act ε σ Bool) : List β → Act ε σ (List β)
  | [] => pure []
  | b :: l => bind (sortBy before l) fun l' => insertBy before b l'

/-- Runs an action on a value that may be missing. -/
def forSome : Option β → (β → Act ε σ Unit) → Act ε σ Unit
  | none, _ => pure ()
  | some b, f => f b

/-- Runs an action under a condition. -/
def when (b : Bool) (x : Act ε σ Unit) : Act ε σ Unit := if b then x else pure ()

@[simp] theorem pure_run (a : α) (s : σ) : (Pure.pure a : Act ε σ α) s = (.ok a, s) := rfl

@[simp] theorem throw_run (e : ε) (s : σ) : (throw e : Act ε σ α) s = (.error e, s) := rfl

@[simp] theorem get_run (s : σ) : (get : Act ε σ σ) s = (.ok s, s) := rfl

@[simp] theorem modify_run (f : σ → σ) (s : σ) : (modify f : Act ε σ Unit) s = (.ok (), f s) := rfl

theorem bind_run (x : Act ε σ α) (f : α → Act ε σ β) (s : σ) :
    (x >>= f) s = match x s with
      | (.ok a, s') => f a s'
      | (.error e, s') => (.error e, s') := rfl

@[simp] theorem forEach_nil (f : β → Act ε σ Unit) : forEach [] f = Pure.pure () := rfl

@[simp] theorem forEach_cons (b : β) (l : List β) (f : β → Act ε σ Unit) :
    forEach (b :: l) f = (f b >>= fun _ => forEach l f) := rfl

@[simp] theorem untilTrue_nil (f : β → Act ε σ Bool) : untilTrue [] f = Pure.pure () := rfl

@[simp] theorem untilTrue_cons (b : β) (l : List β) (f : β → Act ε σ Bool) :
    untilTrue (b :: l) f = (f b >>= fun stop => if stop then Pure.pure () else untilTrue l f) := rfl

@[simp] theorem forSome_none (f : β → Act ε σ Unit) : forSome none f = Pure.pure () := rfl

@[simp] theorem forSome_some (b : β) (f : β → Act ε σ Unit) : forSome (some b) f = f b := rfl

@[simp] theorem when_true (x : Act ε σ Unit) : when true x = x := rfl

@[simp] theorem when_false (x : Act ε σ Unit) : when false x = Pure.pure () := rfl

/-- What follows an action that returned. -/
theorem bind_ok {x : Act ε σ α} {f : α → Act ε σ β} {s s' : σ} {a : α} (h : x s = (.ok a, s')) :
    (x >>= f) s = f a s' := by
  rw [bind_run, h]

/-- Nothing follows an action that threw. -/
theorem bind_error {x : Act ε σ α} {f : α → Act ε σ β} {s s' : σ} {e : ε} (h : x s = (.error e, s')) :
    (x >>= f) s = (.error e, s') := by
  rw [bind_run, h]

/-- An action that returned, one step at a time. -/
theorem bind_eq_ok {x : Act ε σ α} {f : α → Act ε σ β} {s s' : σ} {b : β} (h : (x >>= f) s = (.ok b, s')) :
    ∃ a t, x s = (.ok a, t) ∧ f a t = (.ok b, s') := by
  rw [bind_run] at h
  rcases hx : x s with ⟨r, t⟩
  rw [hx] at h
  cases r with
  | ok a => exact ⟨a, t, rfl, h⟩
  | error e => simp at h

@[simp] theorem get_bind (f : σ → Act ε σ β) (s : σ) : (get >>= f) s = f s s := rfl

@[simp] theorem modify_bind (g : σ → σ) (f : Unit → Act ε σ β) (s : σ) :
    (modify g >>= f) s = f () (g s) := rfl

@[simp] theorem pure_bind_run (a : α) (f : α → Act ε σ β) (s : σ) : ((Pure.pure a : Act ε σ α) >>= f) s = f a s := rfl

@[simp] theorem throw_bind (e : ε) (f : α → Act ε σ β) (s : σ) :
    ((throw e : Act ε σ α) >>= f) s = (.error e, s) := rfl

/-- A loop over a list in two parts. -/
theorem forEach_append (l l' : List β) (f : β → Act ε σ Unit) :
    forEach (l ++ l') f = (forEach l f >>= fun _ => forEach l' f) := by
  funext s
  induction l generalizing s with
  | nil => rfl
  | cons b l ih =>
    rw [List.cons_append, forEach_cons, forEach_cons, bind_run, bind_run, bind_run]
    rcases f b s with ⟨e | u, t⟩
    · rfl
    · exact ih t

/-! ## Preservation -/

/-- **The action preserves `I`**, whether it returns or throws. -/
def Keeps (I : σ → Prop) (x : Act ε σ α) : Prop := ∀ s, I s → I (x s).2

variable {I : σ → Prop}

theorem keeps_pure (a : α) : Keeps I (Pure.pure a : Act ε σ α) := fun _ h => h

theorem keeps_throw (e : ε) : Keeps I (throw e : Act ε σ α) := fun _ h => h

theorem keeps_get : Keeps I (get : Act ε σ σ) := fun _ h => h

theorem keeps_modify {f : σ → σ} (hf : ∀ s, I s → I (f s)) : Keeps I (modify f : Act ε σ Unit) := hf

theorem Keeps.bind {x : Act ε σ α} {f : α → Act ε σ β} (hx : Keeps I x) (hf : ∀ a, Keeps I (f a)) :
    Keeps I (x >>= f) := by
  intro s hs
  have h := hx s hs
  rw [bind_run]
  rcases hr : x s with ⟨r, s'⟩
  rw [hr] at h
  cases r with
  | ok a => exact hf a s' h
  | error e => exact h

theorem Keeps.forEach {f : β → Act ε σ Unit} {l : List β} (hf : ∀ b ∈ l, Keeps I (f b)) :
    Keeps I (forEach l f) := by
  induction l with
  | nil => exact keeps_pure ()
  | cons b l ih =>
    exact (hf b List.mem_cons_self).bind fun _ => ih fun b' hb' => hf b' (List.mem_cons_of_mem _ hb')

theorem Keeps.forSome {f : β → Act ε σ Unit} (hf : ∀ b, Keeps I (f b)) (o : Option β) : Keeps I (forSome o f) := by
  cases o with
  | none => exact keeps_pure ()
  | some b => exact hf b

theorem Keeps.when {b : Bool} {x : Act ε σ Unit} (hx : Keeps I x) : Keeps I (when b x) := by
  cases b with
  | true => exact hx
  | false => exact keeps_pure ()

/-! ## Total correctness -/

/-- **The action returns from every state `I` holds in**, and preserves `I`. -/
def Returns (I : σ → Prop) (x : Act ε σ α) : Prop := ∀ s, I s → ∃ a s', x s = (.ok a, s') ∧ I s'

theorem Returns.keeps {x : Act ε σ α} (hx : Returns I x) : Keeps I x := by
  intro s hs
  obtain ⟨a, s', h1, h2⟩ := hx s hs
  rw [h1]
  exact h2

theorem returns_pure (a : α) : Returns I (Pure.pure a : Act ε σ α) := fun s h => ⟨a, s, rfl, h⟩

theorem returns_get_bind {f : σ → Act ε σ β} (hf : ∀ s, I s → Returns I (f s)) : Returns I (get >>= f) :=
  fun s h => hf s h s h

theorem Returns.bind {x : Act ε σ α} {f : α → Act ε σ β} (hx : Returns I x) (hf : ∀ a, Returns I (f a)) :
    Returns I (x >>= f) := by
  intro s hs
  obtain ⟨a, s₁, h1, h2⟩ := hx s hs
  rw [bind_ok h1]
  exact hf a s₁ h2

theorem Returns.forEach {f : β → Act ε σ Unit} {l : List β} (hf : ∀ b ∈ l, Returns I (f b)) :
    Returns I (forEach l f) := by
  induction l with
  | nil => exact returns_pure ()
  | cons b l ih =>
    exact (hf b List.mem_cons_self).bind fun _ => ih fun b' hb' => hf b' (List.mem_cons_of_mem _ hb')

/-! ## Loops -/

/-- **The invariant rule of a loop.** If every round, from a state the invariant `P`
holds in, throws with an exception and a state for which `Q` holds, or returns in one `P` holds in for one more
element, so does the loop. -/
theorem forEach_cases {f : β → Act ε σ Unit} (P : List β → σ → Prop) (Q : ε → σ → Prop) (l : List β)
    (hstep : ∀ pre b post s, l = pre ++ b :: post → P pre s →
      (∃ e s', f b s = (.error e, s') ∧ Q e s') ∨ ∃ s', f b s = (.ok (), s') ∧ P (pre ++ [b]) s')
    {s : σ} (h0 : P [] s) :
    (∃ e s', forEach l f s = (.error e, s') ∧ Q e s') ∨ ∃ s', forEach l f s = (.ok (), s') ∧ P l s' := by
  -- the elements done so far are a prefix of `l`
  have key : ∀ (rest pre : List β) (s : σ), l = pre ++ rest → P pre s →
      (∃ e s', forEach rest f s = (.error e, s') ∧ Q e s') ∨ ∃ s', forEach rest f s = (.ok (), s') ∧ P l s' := by
    intro rest
    induction rest with
    | nil =>
      intro pre s hl hP
      rw [List.append_nil] at hl
      exact .inr ⟨s, rfl, hl ▸ hP⟩
    | cons b rest ih =>
      intro pre s hl hP
      rw [forEach_cons]
      rcases hstep pre b rest s hl hP with ⟨e, s₁, h1, h2⟩ | ⟨s₁, h1, h2⟩
      · exact .inl ⟨e, s₁, bind_error h1, h2⟩
      · rw [bind_ok h1]
        exact ih (pre ++ [b]) s₁ (by simp [hl]) h2
  exact key l [] s rfl h0

/-- A loop whose rounds all return. -/
theorem forEach_ok {f : β → Act ε σ Unit} (P : List β → σ → Prop) (l : List β)
    (hstep : ∀ pre b post s, l = pre ++ b :: post → P pre s → ∃ s', f b s = (.ok (), s') ∧ P (pre ++ [b]) s')
    {s : σ} (h0 : P [] s) : ∃ s', forEach l f s = (.ok (), s') ∧ P l s' := by
  rcases forEach_cases P (fun _ _ => False) l (fun pre b post s hl hP => .inr (hstep pre b post s hl hP)) h0 with
    ⟨_, _, -, hfalse⟩ | h
  · exact hfalse.elim
  · exact h

/-- Sorting by a comparison that returns permutes the list, and keeps what the comparison keeps. -/
theorem sortBy_ok {before : β → β → Act ε σ Bool} (P : σ → Prop) (l : List β)
    (hstep : ∀ a ∈ l, ∀ b ∈ l, ∀ s, P s → ∃ r s', before a b s = (.ok r, s') ∧ P s') {s : σ} (h0 : P s) :
    ∃ l' s', sortBy before l s = (.ok l', s') ∧ l'.Perm l ∧ P s' := by
  have hinsert : ∀ (b : β) (l' : List β) (s : σ), (∀ c ∈ l', ∀ s, P s → ∃ r s', before c b s = (.ok r, s') ∧ P s') → P s →
      ∃ l'' s', insertBy before b l' s = (.ok l'', s') ∧ l''.Perm (b :: l') ∧ P s' := by
    intro b l'
    induction l' with
    | nil => exact fun s _ hs => ⟨[b], s, rfl, .refl _, hs⟩
    | cons c l' ih =>
      intro s hc hs
      obtain ⟨r, s₁, h1, h2⟩ := hc c List.mem_cons_self s hs
      show ∃ l'' s', (before c b >>= fun first =>
        if first then insertBy before b l' >>= fun l'' => Pure.pure (c :: l'') else Pure.pure (b :: c :: l')) s = _ ∧ _
      rw [bind_ok h1]
      cases r with
      | false => exact ⟨b :: c :: l', s₁, rfl, .refl _, h2⟩
      | true =>
        obtain ⟨l'', s₂, h3, h4, h5⟩ := ih s₁ (fun c' hc' => hc c' (List.mem_cons_of_mem _ hc')) h2
        rw [if_pos rfl, bind_ok h3]
        exact ⟨c :: l'', s₂, rfl, (h4.cons c).trans (.swap b c l'), h5⟩
  induction l generalizing s with
  | nil => exact ⟨[], s, rfl, .refl _, h0⟩
  | cons b l ih =>
    obtain ⟨l', s₁, h1, h2, h3⟩ :=
      ih (fun a ha c hc => hstep a (List.mem_cons_of_mem _ ha) c (List.mem_cons_of_mem _ hc)) h0
    obtain ⟨l'', s₂, h4, h5, h6⟩ :=
      hinsert b l' s₁ (fun c hc => hstep c (List.mem_cons_of_mem _ (h2.mem_iff.1 hc)) b List.mem_cons_self) h3
    refine ⟨l'', s₂, ?_, h5.trans (h2.cons b), h6⟩
    show (sortBy before l >>= fun l' => insertBy before b l') s = _
    rw [bind_ok h1, h4]

end Act

end Lib
