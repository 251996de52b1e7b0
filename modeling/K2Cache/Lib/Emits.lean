import K2Cache.Lib.Act

/-!
# Actions that enumerate under a limit

An action adds results to a list in its state, none twice, and stops adding when the list
has reached a limit (`Emits`): what it adds is of a set, and all of the set where the limit
is not reached. Such actions compose when their sets are disjoint.

* `Emits.bind`, `emits_forEach`, `emits_untilTrue`: one after another, and in loops.
* `Emits.limited`: an action that is skipped where the limit is reached.
-/

namespace Lib

namespace Act

variable {ε σ α β ω : Type} {out : σ → List ω} {m : ℕ} {I J K : σ → Prop} {Q Q' : Set ω}

/-- What a run from `s` to `s'` added. -/
structure Emitted (out : σ → List ω) (m : ℕ) (Q : Set ω) (s s' : σ) : Prop where
  added : ∃ l, out s' = out s ++ l ∧ l.Nodup ∧ (∀ w ∈ l, w ∈ Q) ∧ ((out s').length < m → ∀ w ∈ Q, w ∈ l)
  bounded : (out s').length ≤ m

/-- **The action enumerates `Q`**, from a state with `I` to one with `J`. -/
def Emits (out : σ → List ω) (m : ℕ) (I J : σ → Prop) (Q : Set ω) (x : Act ε σ α) : Prop :=
  ∀ s, I s → (out s).length ≤ m → ∃ a s', x s = (.ok a, s') ∧ J s' ∧ Emitted out m Q s s'

/-- A round of a loop enumerates `Q`: it keeps `I`, or stops because the limit is reached. -/
def EmitsRound (out : σ → List ω) (m : ℕ) (I J : σ → Prop) (Q : Set ω) (x : Act ε σ Bool) : Prop :=
  ∀ s, I s → (out s).length ≤ m →
    ∃ stop s', x s = (.ok stop, s') ∧ Emitted out m Q s s' ∧ (stop = false → I s') ∧
      (stop = true → J s' ∧ (out s').length = m)

/-- Nothing is added. -/
theorem Emitted.nothing {s s' : σ} (h : out s' = out s) (hm : (out s).length ≤ m) : Emitted out m (∅ : Set ω) s s' :=
  ⟨⟨[], by rw [h, List.append_nil], List.nodup_nil, nofun, fun _ _ hw => hw.elim⟩, h ▸ hm⟩

/-- Where the limit is reached, nothing has to be added. -/
theorem Emitted.full {s : σ} (Q : Set ω) (hm : (out s).length = m) : Emitted out m Q s s :=
  ⟨⟨[], (List.append_nil _).symm, List.nodup_nil, nofun, fun hlt => absurd hm hlt.ne⟩, hm.le⟩

theorem Emitted.trans {s s' s'' : σ} (h : Emitted out m Q s s') (h' : Emitted out m Q' s' s'') (hd : Disjoint Q Q') :
    Emitted out m (Q ∪ Q') s s'' := by
  obtain ⟨⟨l, h1, h2, h3, h4⟩, -⟩ := h
  obtain ⟨⟨l', h1', h2', h3', h4'⟩, hb⟩ := h'
  refine ⟨⟨l ++ l', by rw [h1', h1, List.append_assoc], ?_, ?_, ?_⟩, hb⟩
  · refine List.nodup_append.2 ⟨h2, h2', fun a ha b hb hab => ?_⟩
    exact Set.disjoint_left.1 hd (h3 a ha) (hab ▸ h3' b hb)
  · intro w hw
    rcases List.mem_append.1 hw with hw | hw
    · exact .inl (h3 w hw)
    · exact .inr (h3' w hw)
  · intro hlt w hw
    have hlt' : (out s').length < m := by
      rw [h1', List.length_append] at hlt
      omega
    rcases hw with hw | hw
    · exact List.mem_append_left _ (h4 hlt' w hw)
    · exact List.mem_append_right _ (h4' hlt w hw)

/-- A run that reached the limit may be taken for one that enumerates more. -/
theorem Emitted.stopped {s s' : σ} (h : Emitted out m Q s s') (hm : (out s').length = m) (hQ : Q ⊆ Q') : Emitted out m Q' s s' := by
  obtain ⟨⟨l, h1, h2, h3, -⟩, hb⟩ := h
  exact ⟨⟨l, h1, h2, fun w hw => hQ (h3 w hw), fun hlt => absurd hm hlt.ne⟩, hb⟩

theorem emits_pure {a : α} (hIJ : ∀ s, I s → J s) : Emits out m I J ∅ (Pure.pure a : Act ε σ α) :=
  fun s hs hm => ⟨a, s, rfl, hIJ s hs, .nothing rfl hm⟩

/-- A change of the rest of the state. -/
theorem emits_modify {f : σ → σ} (hf : ∀ s, out (f s) = out s) (hIJ : ∀ s, I s → J (f s)) :
    Emits out m I J ∅ (modify f : Act ε σ Unit) :=
  fun s hs hm => ⟨(), f s, rfl, hIJ s hs, .nothing (hf s) hm⟩

/-- After an action that adds nothing and returns a value with `V`. -/
theorem emits_value {x : Act ε σ α} {V : α → Prop} {f : α → Act ε σ β}
    (hx : ∀ s, I s → ∃ a s', x s = (.ok a, s') ∧ V a ∧ J s' ∧ out s' = out s)
    (hf : ∀ a, V a → Emits out m J K Q (f a)) : Emits out m I K Q (x >>= f) := by
  intro s hs hm
  obtain ⟨a, s', h1, h2, h3, h4⟩ := hx s hs
  obtain ⟨b, s'', h5, h6, ⟨l, h7⟩, h8⟩ := hf a h2 s' h3 (h4 ▸ hm)
  exact ⟨b, s'', (bind_ok h1).trans h5, h6, ⟨l, h4 ▸ h7⟩, h8⟩

/-- **One after another.** -/
theorem Emits.bind {x : Act ε σ α} {f : α → Act ε σ β} (hx : Emits out m I J Q x) (hf : ∀ a, Emits out m J K Q' (f a))
    (hd : Disjoint Q Q') : Emits out m I K (Q ∪ Q') (x >>= f) := by
  intro s hs hm
  obtain ⟨a, s', h1, h2, h3⟩ := hx s hs hm
  obtain ⟨b, s'', h4, h5, h6⟩ := hf a s' h2 h3.bounded
  exact ⟨b, s'', (bind_ok h1).trans h4, h5, h3.trans h6 hd⟩

/-- After a change of the rest of the state. -/
theorem Emits.after_modify {f : σ → σ} {x : Act ε σ α} (hx : Emits out m J K Q x) (hf : ∀ s, out (f s) = out s)
    (hIJ : ∀ s, I s → J (f s)) : Emits out m I K Q (modify f >>= fun _ => x) :=
  emits_value (V := fun _ => True) (fun s hs => ⟨(), f s, rfl, trivial, hIJ s hs, hf s⟩) fun _ _ => hx

/-- A round that changes the rest of the state, and changes it back. -/
theorem Emits.round {f g : σ → σ} {x : Act ε σ α} (hx : Emits out m J J Q x) (hf : ∀ s, out (f s) = out s)
    (hg : ∀ s, out (g s) = out s) (hIJ : ∀ s, I s → J (f s)) (hJI : ∀ s, J s → I (g s)) :
    EmitsRound out m I K Q (modify f >>= fun _ => x >>= fun _ => modify g >>= fun _ => Pure.pure false) := by
  intro s hs hm
  obtain ⟨a, s', h1, h2, ⟨l, h3⟩, h4⟩ := hx (f s) (hIJ s hs) (hf s ▸ hm)
  refine ⟨false, g s', ?_, ⟨⟨l, by rwa [hg, ← hf s]⟩, by rwa [hg]⟩, fun _ => hJI s' h2, nofun⟩
  rw [modify_bind, bind_ok h1]
  rfl

/-- Where the limit is reached, the action may be skipped. -/
theorem Emits.limited {x : Act ε σ Unit} {full : σ → Bool}
    (hx : Emits out m (fun s => I s ∧ (out s).length < m) J Q x)
    (hfull : ∀ s, (out s).length ≤ m → (full s = true ↔ (out s).length = m)) (hIJ : ∀ s, I s → J s) :
    Emits out m I J Q (get >>= fun s => if full s then Pure.pure () else x) := by
  intro s hs hm
  rw [get_bind]
  split
  · rename_i h
    exact ⟨(), s, rfl, hIJ s hs, .full Q ((hfull s hm).1 h)⟩
  · rename_i h
    exact hx s ⟨hs, lt_of_le_of_ne hm fun he => h ((hfull s hm).2 he)⟩ hm

/-- **A loop that stops at the limit.** -/
theorem emits_untilTrue {f : β → Act ε σ Bool} {l : List β} {Q : β → Set ω} (hIJ : ∀ s, I s → J s)
    (hf : ∀ b ∈ l, EmitsRound out m I J (Q b) (f b)) (hd : l.Pairwise fun b b' => Disjoint (Q b) (Q b')) :
    Emits out m I J (⋃ b ∈ l, Q b) (untilTrue l f) := by
  induction l with
  | nil =>
    intro s hs hm
    refine ⟨(), s, rfl, hIJ s hs, ?_⟩
    rw [show (⋃ b ∈ ([] : List β), Q b) = ∅ by simp]
    exact .nothing rfl hm
  | cons b l ih =>
    obtain ⟨hd1, hd2⟩ := List.pairwise_cons.1 hd
    have hunion : (⋃ b' ∈ b :: l, Q b') = Q b ∪ ⋃ b' ∈ l, Q b' := by simp
    intro s hs hm
    obtain ⟨stop, s', h1, h2, h3, h4⟩ := hf b List.mem_cons_self s hs hm
    rw [untilTrue_cons, bind_ok h1, hunion]
    cases stop with
    | true => exact ⟨(), s', rfl, (h4 rfl).1, h2.stopped (h4 rfl).2 Set.subset_union_left⟩
    | false =>
      obtain ⟨a, s'', h5, h6, h7⟩ := ih (fun b' hb' => hf b' (List.mem_cons_of_mem _ hb')) hd2 s' (h3 rfl) h2.bounded
      exact ⟨a, s'', h5, h6, h2.trans h7 (Set.disjoint_iUnion₂_right.2 hd1)⟩

/-- **A loop.** -/
theorem emits_forEach {f : β → Act ε σ Unit} {l : List β} {Q : β → Set ω} (hf : ∀ b ∈ l, Emits out m I I (Q b) (f b))
    (hd : l.Pairwise fun b b' => Disjoint (Q b) (Q b')) : Emits out m I I (⋃ b ∈ l, Q b) (forEach l f) := by
  induction l with
  | nil =>
    rw [show (⋃ b ∈ ([] : List β), Q b) = ∅ by simp]
    exact emits_pure fun _ h => h
  | cons b l ih =>
    obtain ⟨hd1, hd2⟩ := List.pairwise_cons.1 hd
    have hunion : (⋃ b' ∈ b :: l, Q b') = Q b ∪ ⋃ b' ∈ l, Q b' := by simp
    rw [hunion, forEach_cons]
    exact (hf b List.mem_cons_self).bind (fun _ => ih (fun b' hb' => hf b' (List.mem_cons_of_mem _ hb')) hd2)
      (Set.disjoint_iUnion₂_right.2 hd1)

end Act

end Lib
