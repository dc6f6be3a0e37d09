import Mathlib

/-!
# Loops that can fail

A loop that goes through a list and can fail at every element succeeds if and only if it succeeds at
all of them, and then its results are those of the elements, one by one.
-/

namespace LinkedTables

variable {α β ε : Type}

theorem eq_ok_of_toOption {x : Except ε α} {a : α} (h : x.toOption = some a) : x = .ok a := by
  cases x with
  | error e => cases h
  | ok b => exact congrArg _ (Option.some.inj h)

/-- Two steps fail with what one of them fails with. -/
theorem bind_eq_error {x : Except ε α} {k : α → Except ε β} {e : ε} (h : (x >>= k) = .error e) :
    x = .error e ∨ ∃ a, x = .ok a ∧ k a = .error e := by
  rcases x with e' | a
  · cases h
    exact Or.inl rfl
  · exact Or.inr ⟨a, rfl, h⟩

/-- Two steps succeed if both do. -/
theorem bind_eq_ok {x : Except ε α} {k : α → Except ε β} {b : β} (h : (x >>= k) = .ok b) :
    ∃ a, x = .ok a ∧ k a = .ok b := by
  rcases x with e | a
  · cases h
  · exact ⟨a, rfl, h⟩

/-- A loop of checks succeeds only if each of them does. -/
theorem forIn_ok {check : α → Except ε Unit} : ∀ {xs : List α},
    (forIn xs PUnit.unit fun x _ => do
      check x
      pure (ForInStep.yield PUnit.unit)) = Except.ok PUnit.unit → ∀ x ∈ xs, check x = .ok ()
  | [], _ => by simp
  | x :: xs, h => by
    simp only [List.forIn_cons, bind, Except.bind, pure, Except.pure] at h
    rcases hx : check x with e | u
    · simp [hx] at h
    · simp only [hx] at h
      rintro y hy
      rcases List.mem_cons.1 hy with rfl | hy
      · exact hx
      · exact forIn_ok h y hy

/-- A loop of checks succeeds if each of them does. -/
theorem forIn_of_forall {check : α → Except ε Unit} : ∀ {xs : List α},
    (∀ x ∈ xs, check x = .ok ()) → (forIn xs PUnit.unit fun x _ => do
      check x
      pure (ForInStep.yield PUnit.unit)) = Except.ok PUnit.unit
  | [], _ => rfl
  | x :: xs, h => by
    have ih := forIn_of_forall fun y hy => h y (List.mem_cons_of_mem x hy)
    rw [List.forIn_cons, h x (by simp)]
    exact ih

/-- A loop of checks fails with what one of them fails with. -/
theorem exists_error_of_forIn {check : α → Except ε Unit} {e : ε} : ∀ {xs : List α},
    (forIn xs PUnit.unit fun x _ => do
      check x
      pure (ForInStep.yield PUnit.unit)) = Except.error e → ∃ x ∈ xs, check x = .error e
  | [], h => by cases h
  | x :: xs, h => by
    rw [List.forIn_cons] at h
    rcases hx : check x with e' | u
    · rw [hx] at h
      cases h
      exact ⟨x, by simp, hx⟩
    · rw [hx] at h
      obtain ⟨y, hy, hfail⟩ := exists_error_of_forIn h
      exact ⟨y, List.mem_cons_of_mem x hy, hfail⟩

theorem mapM_congr {f g : α → Except ε β} : ∀ {xs : List α}, (∀ x ∈ xs, f x = g x) →
    xs.mapM f = xs.mapM g
  | [], _ => rfl
  | x :: xs, h => by
    rw [List.mapM_cons, List.mapM_cons, h x (by simp),
      mapM_congr fun y hy => h y (List.mem_cons_of_mem x hy)]

/-- Loops that carry a value along take the same steps. -/
theorem foldlM_congr {m : Type → Type} [Monad m] {f g : β → α → m β} : ∀ {xs : List α} {b : β},
    (∀ x ∈ xs, ∀ b, f b x = g b x) → xs.foldlM f b = xs.foldlM g b
  | [], _, _ => rfl
  | x :: xs, b, h => by
    rw [List.foldlM_cons, List.foldlM_cons, h x (by simp)]
    exact bind_congr fun b => foldlM_congr fun y hy => h y (List.mem_cons_of_mem x hy)

/-- What every step keeps, a loop that carries a value along keeps. -/
theorem foldlM_invariant {f : β → α → Except ε β} {P : β → Prop}
    (hstep : ∀ {b b' x}, P b → f b x = .ok b' → P b') : ∀ {xs : List α} {b b' : β}, P b →
      xs.foldlM f b = .ok b' → P b'
  | [], b, b', hb, h => by
    cases h
    exact hb
  | x :: xs, b, b', hb, h => by
    rw [List.foldlM_cons] at h
    obtain ⟨c, hc, h⟩ := bind_eq_ok h
    exact foldlM_invariant hstep (hstep hb hc) h

theorem forall₂_of_mapM {f : α → Except ε β} : ∀ {xs : List α} {ys : List β},
    xs.mapM f = .ok ys → List.Forall₂ (fun x y => f x = .ok y) xs ys
  | [], ys, h => by
    cases h
    exact .nil
  | x :: xs, ys, h => by
    simp only [List.mapM_cons, bind, Except.bind] at h
    split at h
    · cases h
    rename_i y hy
    split at h
    · cases h
    rename_i rest hrest
    cases h
    exact .cons hy (forall₂_of_mapM hrest)

theorem mapM_of_forall₂ {f : α → Except ε β} {xs : List α} {ys : List β}
    (h : List.Forall₂ (fun x y => f x = .ok y) xs ys) : xs.mapM f = .ok ys := by
  induction h with
  | nil => rfl
  | cons hxy _ ih =>
    rw [List.mapM_cons, hxy, ih]
    rfl

/-- The same for a loop that gives nothing when it fails. -/
theorem forall₂_of_mapM_some {f : α → Option β} : ∀ {xs : List α} {ys : List β},
    xs.mapM f = some ys → List.Forall₂ (fun x y => f x = some y) xs ys
  | [], ys, h => by
    cases h
    exact .nil
  | x :: xs, ys, h => by
    simp only [List.mapM_cons, bind, Option.bind_eq_some_iff, pure, Option.some.injEq] at h
    obtain ⟨y, hy, rest, hrest, rfl⟩ := h
    exact .cons hy (forall₂_of_mapM_some hrest)

/-- A loop over numbers succeeds exactly if it does at each of them. -/
theorem mapM_range_eq_ok {f : Nat → Except ε β} {n : Nat} {ys : List β} :
    (List.range n).mapM f = .ok ys ↔
      ys.length = n ∧ ∀ r < n, ∃ y, ys[r]? = some y ∧ f r = .ok y := by
  constructor
  · intro h
    have hall := forall₂_of_mapM h
    have hlen : n = ys.length := by simpa using hall.length_eq
    refine ⟨hlen.symm, fun r hr => ⟨_, List.getElem?_eq_getElem (hlen ▸ hr), ?_⟩⟩
    simpa using hall.get (i := r) (by simpa using hr) (hlen ▸ hr)
  · rintro ⟨hlen, hall⟩
    refine mapM_of_forall₂ (List.forall₂_iff_get.2 ⟨by simpa using hlen.symm, fun r hr hr' => ?_⟩)
    obtain ⟨y, hy, hf⟩ := hall r (by simpa using hr)
    obtain ⟨hlt, rfl⟩ := List.getElem?_eq_some_iff.1 hy
    simpa using hf

/-- The results, or the fault, of a loop can be changed at every element or at the end. -/
theorem mapM_mapError_map {γ ε' : Type} (f : α → Except ε β) (w : ε → ε') (h : β → γ) :
    ∀ xs : List α, (xs.mapM fun x => ((f x).mapError w).map h) =
      ((xs.mapM f).mapError w).map (List.map h)
  | [] => rfl
  | x :: xs => by
    rw [List.mapM_cons, List.mapM_cons, mapM_mapError_map f w h xs]
    rcases f x with e | y
    · rfl
    · rcases xs.mapM f with e | ys <;> rfl

theorem mapM_ok {f : α → Except ε β} : ∀ {xs : List α}, (∀ x ∈ xs, ∃ y, f x = .ok y) →
    ∃ ys, xs.mapM f = .ok ys
  | [], _ => ⟨[], rfl⟩
  | x :: xs, h => by
    obtain ⟨y, hy⟩ := h x (by simp)
    obtain ⟨ys, hys⟩ := mapM_ok fun z hz => h z (List.mem_cons_of_mem x hz)
    refine ⟨y :: ys, ?_⟩
    rw [List.mapM_cons, hy]
    simp only [bind, Except.bind, hys]
    rfl

/-- A loop fails with what it fails with at one of the elements. -/
theorem exists_error_of_mapM {f : α → Except ε β} {e : ε} : ∀ {xs : List α},
    xs.mapM f = .error e → ∃ x ∈ xs, f x = .error e
  | [], h => by cases h
  | x :: xs, h => by
    simp only [List.mapM_cons, bind, Except.bind] at h
    split at h
    · rename_i e' hx
      cases h
      exact ⟨x, by simp, hx⟩
    split at h
    · rename_i e' hrest
      cases h
      obtain ⟨y, hy, hfail⟩ := exists_error_of_mapM hrest
      exact ⟨y, List.mem_cons_of_mem x hy, hfail⟩
    · cases h

/-- The first element that it fails at. -/
theorem exists_first_of_mapM {f : α → Except ε β} {e : ε} : ∀ {xs : List α},
    xs.mapM f = .error e → ∃ (i : Nat) (x : α), xs[i]? = some x ∧ f x = .error e ∧
      ∀ (j : Nat) (y : α), j < i → xs[j]? = some y → ∃ b, f y = .ok b
  | [], h => by cases h
  | x :: xs, h => by
    rcases hx : f x with e' | b
    · rw [List.mapM_cons, hx] at h
      cases h
      exact ⟨0, x, rfl, hx, fun j y hj => absurd hj (Nat.not_lt_zero j)⟩
    · rw [List.mapM_cons, hx] at h
      obtain hrest | ⟨_, -, h⟩ := bind_eq_error (show (xs.mapM f >>= _) = .error e from h)
      · obtain ⟨i, y, hy, hfail, hbefore⟩ := exists_first_of_mapM hrest
        refine ⟨i + 1, y, hy, hfail, fun j z hj hz => ?_⟩
        rcases j with _ | j
        · cases hz
          exact ⟨b, hx⟩
        · exact hbefore j z (Nat.lt_of_succ_lt_succ hj) hz
      · cases h

/-- What stands at a place was made of what stands there. -/
theorem getElem?_of_mapM {f : α → Except ε β} {xs : List α} {ys : List β} (h : xs.mapM f = .ok ys)
    (i : Nat) : (∀ x, xs[i]? = some x → ∃ y, ys[i]? = some y ∧ f x = .ok y) ∧
      ∀ y, ys[i]? = some y → ∃ x, xs[i]? = some x ∧ f x = .ok y := by
  have hall := forall₂_of_mapM h
  have hlength := hall.length_eq
  constructor
  · intro x hx
    obtain ⟨hi, rfl⟩ := List.getElem?_eq_some_iff.1 hx
    exact ⟨_, List.getElem?_eq_getElem (hlength ▸ hi), hall.get hi (hlength ▸ hi)⟩
  · intro y hy
    obtain ⟨hi, rfl⟩ := List.getElem?_eq_some_iff.1 hy
    exact ⟨_, List.getElem?_eq_getElem (hlength ▸ hi), hall.get (hlength ▸ hi) hi⟩

/-- Two steps fail with a changed fault if each of them does. -/
theorem mapError_bind {ε' : Type} {x : Except ε' α} {x' : Except ε α} {k : α → Except ε' β}
    {k' : α → Except ε β} {w : ε → ε'} (hx : x = x'.mapError w)
    (hk : ∀ a, k a = (k' a).mapError w) : (x >>= k) = (x' >>= k').mapError w := by
  subst hx
  rcases x' with e | a
  · rfl
  · exact hk a

theorem mapError_eq_error {ε' : Type} {x : Except ε α} {w : ε → ε'} {e : ε'} :
    x.mapError w = .error e ↔ ∃ e', x = .error e' ∧ w e' = e := by
  rcases x with e' | a <;> simp [Except.mapError]

theorem mapError_eq_ok {ε' : Type} {x : Except ε α} {w : ε → ε'} {a : α} :
    x.mapError w = .ok a ↔ x = .ok a := by
  rcases x with e | b <;> simp [Except.mapError]

theorem mapM_singleton (f : α → Except ε β) (x : α) : [x].mapM f = (f x).map fun y => [y] := by
  rw [List.mapM_cons]
  rcases f x with e | y <;> rfl

/-- A loop that cannot fail gives the results of all elements. -/
theorem mapM_ok_eq (f : α → β) : ∀ xs : List α,
    (xs.mapM fun x => (.ok (f x) : Except ε β)) = .ok (xs.map f)
  | [] => rfl
  | x :: xs => by
    rw [List.mapM_cons, mapM_ok_eq f xs]
    rfl

theorem exists_of_mem_right {R : α → β → Prop} {xs : List α} {ys : List β}
    (h : List.Forall₂ R xs ys) : ∀ y ∈ ys, ∃ x ∈ xs, R x y := by
  induction h with
  | nil => simp
  | cons hxy _ ih =>
    intro z hz
    rcases List.mem_cons.1 hz with rfl | hz
    · exact ⟨_, by simp, hxy⟩
    · obtain ⟨w, hw, hR⟩ := ih z hz
      exact ⟨w, List.mem_cons_of_mem _ hw, hR⟩

theorem exists_of_mem_left {R : α → β → Prop} {xs : List α} {ys : List β}
    (h : List.Forall₂ R xs ys) : ∀ x ∈ xs, ∃ y ∈ ys, R x y := by
  intro x hx
  exact exists_of_mem_right h.flip x hx

/-- What there is for two entries that stand side by side there is for all of them. -/
theorem exists_of_forall₂ {γ : Type} {R : α → β → Prop} {P : α → γ → Prop} {Q : β → γ → Prop} :
    ∀ {xs : List α} {ys : List β}, List.Forall₂ R xs ys → (∀ x ∈ xs, ∀ y, R x y → ∃ z, P x z ∧ Q y z) →
      ∃ zs, List.Forall₂ P xs zs ∧ List.Forall₂ Q ys zs
  | [], [], .nil, _ => ⟨[], .nil, .nil⟩
  | x :: _, y :: _, .cons hxy h, hstep => by
    obtain ⟨z, hz, hz'⟩ := hstep x (by simp) y hxy
    obtain ⟨zs, hzs, hzs'⟩ := exists_of_forall₂ h fun w hw => hstep w (List.mem_cons_of_mem x hw)
    exact ⟨z :: zs, .cons hz hzs, .cons hz' hzs'⟩

/-- What stands at a place on the right has its counterpart at the same place on the left. -/
theorem exists_of_append_right {R : α → β → Prop} : ∀ {xs : List α} {ys : List β} {y : β}
    {zs : List β}, List.Forall₂ R xs (ys ++ y :: zs) →
      ∃ before x after, xs = before ++ x :: after ∧ before.length = ys.length ∧ R x y
  | [], ys, _, _, h => by cases ys <;> cases h
  | x :: xs, [], _, _, .cons hx _ => ⟨[], x, xs, rfl, rfl, hx⟩
  | x :: xs, _ :: ys, _, _, .cons _ h => by
    obtain ⟨before, u, after, rfl, hlen, hu⟩ := exists_of_append_right h
    exact ⟨x :: before, u, after, rfl, by simp [hlen], hu⟩

end LinkedTables
