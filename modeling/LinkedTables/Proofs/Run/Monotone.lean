import LinkedTables.Proofs.Number.Compared
import LinkedTables.Proofs.Run.Draws

/-!
# Greater draws pick later alternatives

Which alternatives are available does not depend on the draw, and neither do the sums of the shares. So
what a draw passes over, a greater draw passes over too, however the sums were rounded
(`pick_mono`): where the greater one is exceeded, the lesser one is. A draw that no sum exceeds picks
the last alternative with a weight, and what another draw picks is that one or one before it.

An alternative with a weight above zero is available, and its utility is infinite if some utility is
(`eligible_of_weight`), provided that the exponential of negative infinity is zero.
-/

namespace LinkedTables

open Number

namespace Number

theorem sub_neg_infinity {x : Float} (hnan : x ≠ Float.nan)
    (hinf : ∀ s, x.toModel.unpack ≠ .infinity s) : -infinity - x = -infinity := by
  have hsame : Float.Model.UnpackedFloat.sub .binary64 (-infinity).toModel.unpack x.toModel.unpack =
      (-infinity).toModel.unpack := by
    rw [neg_infinity_unpack]
    rcases hx : x.toModel.unpack with s | _ | s | ⟨s, m, e, hm⟩
    · exact absurd hx (hinf s)
    · exact absurd (eq_nan_of_unpack hx) hnan
    · rfl
    · rfl
  rw [sub_eq, hsame, pack_unpack]

theorem not_infinity_lt (x : Float) : ¬ infinity < x := by
  rw [lt_iff, infinity_unpack]
  rcases x.toModel.unpack with s | _ | s | ⟨s, m, e, hm⟩ <;> try cases s
  all_goals simp [Float.Model.UnpackedFloat.lt, Float.Model.UnpackedFloat.compare]

theorem lt_infinity {x : Float} (hnan : x ≠ Float.nan) (hinf : x ≠ infinity) : x < infinity := by
  rw [lt_iff, infinity_unpack]
  rcases hx : x.toModel.unpack with s | _ | s | ⟨s, m, e, hm⟩
  · cases s
    · rfl
    · exact absurd (eq_of_unpack_infinity hx infinity_unpack) hinf
  · exact absurd (eq_nan_of_unpack hx) hnan
  · rfl
  · cases s <;> rfl

theorem maxNumber_infinity {a : Float} (ha : a ≠ Float.nan) : maxNumber a infinity = infinity := by
  unfold maxNumber
  split_ifs with hna hnb hlt
  · rfl
  · exact absurd (isNaN_iff.1 hnb) (ne_nan_of_unpack infinity_unpack)
  · rfl
  · by_contra hinf
    exact hlt (lt_infinity ha hinf)

theorem infinity_maxNumber (b : Float) : maxNumber infinity b = infinity := by
  unfold maxNumber
  split_ifs with hna hnb hlt
  · exact absurd (isNaN_iff.1 hna) (ne_nan_of_unpack infinity_unpack)
  · rfl
  · exact absurd hlt (not_infinity_lt b)
  · rfl

theorem foldl_maxNumber_infinity : ∀ {xs : List Float} {a : Float}, a ≠ Float.nan →
    a = infinity ∨ infinity ∈ xs → xs.foldl maxNumber a = infinity
  | [], _, _, h => h.resolve_right List.not_mem_nil
  | x :: xs, a, ha, h => by
    rw [List.foldl_cons]
    refine foldl_maxNumber_infinity (maxNumber_ne_nan ha) ?_
    rcases h with rfl | hmem
    · exact Or.inl (infinity_maxNumber x)
    · rcases List.mem_cons.1 hmem with rfl | hmem
      · exact Or.inl (maxNumber_infinity ha)
      · exact Or.inr hmem

theorem greatest_infinity {xs : List Float} (h : infinity ∈ xs) : greatest xs = infinity :=
  foldl_maxNumber_infinity (ne_nan_of_unpack neg_infinity_unpack) (Or.inr h)

end Number

namespace Choice

variable {exp : Float → Float} {us : List Float} {draw draw' sum : Float}

/-- An alternative that a draw may pick: it is available, and infinite if some utility is. -/
def Eligible (us : List Float) (i : Nat) : Prop :=
  ∃ u, us[i]? = some u ∧ Available u ∧ (infinity ∈ us → u = infinity)

/-- A weight that is not zero is that of an eligible alternative. -/
theorem eligible_of_weight (hbottom : exp (-infinity) = 0.0) (h : ∃ u ∈ us, Available u) {i : Nat}
    {w : Float} (hi : (weights exp us)[i]? = some w) (hw : ¬ w ≤ 0.0) : Eligible us i := by
  rw [weights, List.getElem?_map] at hi
  obtain ⟨u, hu, rfl⟩ := Option.map_eq_some_iff.1 hi
  have hnan : u ≠ Float.nan := fun hnan => hw (by rw [hnan, weight_nan]; exact zero_le_zero)
  by_cases htop : greatest us = infinity
  · -- the weights are one for infinite utilities and zero for the others
    have hinf : u = infinity := by
      by_contra hinf
      rw [weight, if_neg (mt isNaN_iff.1 hnan),
        if_pos ((beq_infinity_iff infinity_unpack).2 htop),
        if_neg (mt (beq_infinity_iff infinity_unpack).1 hinf)] at hw
      exact hw zero_le_zero
    exact ⟨u, hu, ⟨hnan, hinf ▸ infinity_ne⟩, fun _ => hinf⟩
  · refine ⟨u, hu, ⟨hnan, fun hneg => hw ?_⟩, fun hmem => absurd (greatest_infinity hmem) htop⟩
    have hne : greatest us ≠ -infinity := fun heq => greatest_eq_iff.1 heq h
    rw [weight_eq htop hnan, hneg, sub_neg_infinity (greatest_ne_nan us) (finite_top htop hne),
      hbottom]
    exact zero_le_zero

/-- What is picked from weights, counted from `j` on, is one with a weight that is not zero, or what was
picked before if there is none. -/
theorem pick_eq (draw sum : Float) : ∀ (ws : List Float) (start : Float) (j : Nat)
    (before : Option (Nat × Float)),
    ((∀ w ∈ ws, w ≤ 0.0) ∧ pick draw sum j start before ws = before) ∨
      ∃ i w, ws[i]? = some w ∧ ¬ w ≤ 0.0 ∧
        pick draw sum j start before ws = some (j + i, w / sum)
  | [], _, _, _ => Or.inl ⟨by simp, rfl⟩
  | w :: ws, start, j, before => by
    have hlater : ∀ {start before}, (∃ i w', ws[i]? = some w' ∧ ¬ w' ≤ 0.0 ∧
        pick draw sum (j + 1) start before ws = some (j + 1 + i, w' / sum)) →
        ∃ i w', (w :: ws)[i]? = some w' ∧ ¬ w' ≤ 0.0 ∧
          pick draw sum (j + 1) start before ws = some (j + i, w' / sum) := by
      rintro start before ⟨i, w', hi, hw', hpick⟩
      exact ⟨i + 1, w', by simpa using hi, hw', by rw [hpick]; congr 2; omega⟩
    by_cases hzero : w ≤ 0.0
    · rw [pick, if_pos hzero]
      exact (pick_eq draw sum ws start (j + 1) before).imp
        (And.imp_left fun hall => List.forall_mem_cons.2 ⟨hzero, hall⟩) hlater
    · refine Or.inr ?_
      by_cases hpass : draw < start + w / sum
      · exact ⟨0, w, rfl, hzero, by simp only [pick, if_neg hzero, if_pos hpass, Nat.add_zero]⟩
      · simp only [pick, if_neg hzero, if_neg hpass]
        rcases pick_eq draw sum ws (start + w / sum) (j + 1) (some (j, w / sum)) with
          ⟨-, hpick⟩ | hfound
        · exact ⟨0, w, rfl, hzero, hpick⟩
        · exact hlater hfound

/-- Of two draws the lesser one picks the earlier alternative, or the same. -/
theorem pick_mono (h : draw ≤ draw') : ∀ {ws : List Float} {start : Float} (j : Nat)
    (before : Option (Nat × Float)) {picked picked' : Nat × Float},
    pick draw sum j start before ws = some picked →
    pick draw' sum j start before ws = some picked' → picked.1 ≤ picked'.1
  | [], _, _, _, _, _, hpick, hpick' => by
    simp only [pick] at hpick hpick'
    obtain rfl := Option.some.inj (hpick.symm.trans hpick')
    exact le_rfl
  | w :: ws, start, j, before, picked, picked', hpick, hpick' => by
    by_cases hzero : w ≤ 0.0
    · rw [pick, if_pos hzero] at hpick hpick'
      exact pick_mono h (j + 1) before hpick hpick'
    simp only [pick, if_neg hzero] at hpick hpick'
    by_cases hpass : draw < start + w / sum
    · rw [if_pos hpass] at hpick
      obtain rfl := Option.some.inj hpick
      split_ifs at hpick'
      · obtain rfl := Option.some.inj hpick'
        exact le_rfl
      · -- the greater draw goes on, with this alternative as the last one so far
        rcases pick_eq draw' sum ws (start + w / sum) (j + 1) (some (j, w / sum)) with
          ⟨-, hlast⟩ | ⟨i, w', -, -, hlater⟩
        · obtain rfl := Option.some.inj (hlast.symm.trans hpick')
          exact le_rfl
        · obtain rfl := Option.some.inj (hlater.symm.trans hpick')
          exact (Nat.le_succ j).trans (Nat.le_add_right _ _)
    · have hpass' : ¬ draw' < start + w / sum := fun hlt => hpass (lt_of_le_of_lt h hlt)
      rw [if_neg hpass] at hpick
      rw [if_neg hpass'] at hpick'
      exact pick_mono h (j + 1) _ hpick hpick'

/-- An eligible alternative is picked if one is available. -/
theorem exists_eligible (hzero : exp 0.0 = 1.0) (hbottom : exp (-infinity) = 0.0)
    (h : ∃ u ∈ us, Available u) (draw : Float) :
    ∃ i p, chooseBy exp us draw = some (i, p) ∧ Eligible us i := by
  rw [chooseBy_eq_pick h]
  rcases pick_eq draw (total exp us) (weights exp us) 0.0 0 none with ⟨hnone, -⟩ | ⟨i, w, hi, hw, hpick⟩
  · obtain ⟨w, hw, hpos⟩ := exists_weight hzero h
    exact absurd (hnone w hw) (not_le_zero hpos)
  · rw [Nat.zero_add] at hpick
    exact ⟨i, _, hpick, eligible_of_weight hbottom h hi hw⟩

/-- Draws from the same utilities, for a function that is one at zero and zero at negative infinity.
A draw picks nothing exactly if every utility is a NaN or negative infinity, and then no draw picks
anything. Otherwise every draw picks an alternative whose utility is neither of these, and infinite
if some utility is; a greater draw picks no earlier one. -/
theorem chooseBy_mono (hzero : exp 0.0 = 1.0) (hbottom : exp (-infinity) = 0.0) (us : List Float)
    (h : draw ≤ draw') :
    (chooseBy exp us draw = none ↔ ∀ u ∈ us, u = Float.nan ∨ u = -infinity) ∧
    (chooseBy exp us draw = none → chooseBy exp us draw' = none) ∧
    ((¬ ∀ u ∈ us, u = Float.nan ∨ u = -infinity) → ∃ i p i' p',
      chooseBy exp us draw = some (i, p) ∧ chooseBy exp us draw' = some (i', p') ∧
      Eligible us i ∧ Eligible us i' ∧ i ≤ i') := by
  have hnone : ∀ draw, chooseBy exp us draw = none ↔ ∀ u ∈ us, u = Float.nan ∨ u = -infinity :=
    fun draw => by
      rw [← not_available_iff]
      refine ⟨fun hpick hsome => ?_, chooseBy_eq_none⟩
      obtain ⟨i, p, hchoose, -⟩ := exists_eligible hzero hbottom hsome draw
      rw [hchoose] at hpick
      cases hpick
  refine ⟨hnone draw, fun hpick => (hnone draw').2 ((hnone draw).1 hpick), fun hsome => ?_⟩
  rw [← not_available_iff, not_not] at hsome
  obtain ⟨i, p, hchoose, heligible⟩ := exists_eligible hzero hbottom hsome draw
  obtain ⟨i', p', hchoose', heligible'⟩ := exists_eligible hzero hbottom hsome draw'
  refine ⟨i, p, i', p', hchoose, hchoose', heligible, heligible', ?_⟩
  rw [chooseBy_eq_pick hsome] at hchoose hchoose'
  exact pick_mono h 0 none hchoose hchoose'

/-- Two infinite utilities share the weight, whatever stands between them. -/
theorem chooseBy_mono_infinite : Sample.exp 0.0 = 1.0 ∧ Sample.exp (-infinity) = 0.0 ∧
    (0.25 : Float) ≤ 0.75 ∧ ∃ p p',
      chooseBy Sample.exp [infinity, 0.0, Float.nan, infinity, -infinity] 0.25 = some (0, p) ∧
      chooseBy Sample.exp [infinity, 0.0, Float.nan, infinity, -infinity] 0.75 = some (3, p') ∧
      Eligible [infinity, 0.0, Float.nan, infinity, -infinity] 3 := by
  have hzero : Sample.exp 0.0 = 1.0 := by decide +kernel
  have hbottom : Sample.exp (-infinity) = 0.0 := by decide +kernel
  have hle : (0.25 : Float) ≤ 0.75 := by decide +kernel
  obtain ⟨-, -, hpick⟩ :=
    chooseBy_mono hzero hbottom [infinity, 0.0, Float.nan, infinity, -infinity] hle
  obtain ⟨i, p, i', p', hchoose, hchoose', -, heligible, -⟩ := hpick (by decide +kernel)
  have hfirst : (chooseBy Sample.exp [infinity, 0.0, Float.nan, infinity, -infinity] 0.25).map
    Prod.fst = some 0 := by decide +kernel
  have hsecond : (chooseBy Sample.exp [infinity, 0.0, Float.nan, infinity, -infinity] 0.75).map
    Prod.fst = some 3 := by decide +kernel
  rw [hchoose] at hfirst
  rw [hchoose'] at hsecond
  cases hfirst
  cases hsecond
  exact ⟨hzero, hbottom, hle, p, p', hchoose, hchoose', heligible⟩

end Choice

end LinkedTables
