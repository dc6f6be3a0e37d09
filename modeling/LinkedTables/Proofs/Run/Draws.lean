import LinkedTables.Proofs.Number.Signs
import LinkedTables.Proofs.Run.Rows
import LinkedTables.Run.Kernel

/-!
# What a draw picks

A draw from `[0, 1)` picks some alternative as soon as one is available, and gives its share for the
probability. If the shares, added up from left to right, exceed the draw somewhere then the first
place where they do is picked (`chooseBy_passes`). There the share is above zero, since adding a zero
does not make a sum pass a draw. If the shares fall short of the draw then the last alternative with
a weight above zero is picked, and its share may have been rounded to zero: a weight above zero is
no share above zero (`drawn_of_available`, `exists_zero_share`).

Of the exponential function no more is used than that it is one at zero and negative nowhere.
-/

namespace LinkedTables

namespace Number

section Greatest

variable {x : Float}

theorem infinity_unpack : infinity.toModel.unpack = .infinity .positive := by
  with_unfolding_all rfl

theorem neg_infinity_unpack : (-infinity).toModel.unpack = .infinity .negative := by
  with_unfolding_all rfl

theorem infinity_ne : infinity ≠ -infinity := fun h => by
  have hunpack : infinity.toModel.unpack = (-infinity).toModel.unpack := congrArg (·.toModel.unpack) h
  rw [infinity_unpack, neg_infinity_unpack] at hunpack
  cases hunpack

theorem isNaN_iff : x.isNaN = true ↔ x = Float.nan := by
  rw [Float.isNaN_eq_decide_eq_nan, decide_eq_true_iff]

theorem ne_nan_of_unpack {s : Float.Model.UnpackedFloat.Sign} (h : x.toModel.unpack = .infinity s) :
    x ≠ Float.nan := by
  rintro rfl
  cases h

/-- Of the two infinities there is one pattern each. -/
theorem eq_of_unpack_infinity {x y : Float} {s : Float.Model.UnpackedFloat.Sign}
    (hx : x.toModel.unpack = .infinity s) (hy : y.toModel.unpack = .infinity s) : x = y := by
  rw [← pack_unpack x, ← pack_unpack y, hx, hy]

/-- A number is equal to an infinity only if it is that infinity. -/
theorem beq_infinity_iff {x y : Float} {s : Float.Model.UnpackedFloat.Sign} (hy : y.toModel.unpack = .infinity s) :
    (x == y) = true ↔ x = y := by
  refine ⟨fun h => ?_, fun h => ?_⟩
  · obtain ⟨-, -, h | ⟨-, rfl⟩ | ⟨-, rfl⟩⟩ := Float.beq_iff_ne_nan_and_eq.1 h
    · exact h
    · cases hy
    · cases hy
  · rw [h, Float.beq_self_iff]
    exact ne_nan_of_unpack hy

theorem neg_infinity_lt (hnan : x ≠ Float.nan) (hinf : x ≠ -infinity) : -infinity < x := by
  rw [lt_iff, neg_infinity_unpack]
  rcases hx : x.toModel.unpack with s | _ | s | ⟨s, m, e, hm⟩
  · cases s
    · exact absurd (eq_of_unpack_infinity hx neg_infinity_unpack) hinf
    · rfl
  · exact absurd (eq_nan_of_unpack hx) hnan
  · rfl
  · cases s <;> rfl

theorem not_lt_neg_infinity (x : Float) : ¬ x < -infinity := by
  rw [lt_iff, neg_infinity_unpack]
  rcases x.toModel.unpack with s | _ | s | ⟨s, m, e, hm⟩ <;> try cases s
  all_goals simp [Float.Model.UnpackedFloat.lt, Float.Model.UnpackedFloat.compare]

theorem maxNumber_ne_nan {a b : Float} (ha : a ≠ Float.nan) : maxNumber a b ≠ Float.nan := by
  unfold maxNumber
  split_ifs with hna hnb
  · exact absurd (isNaN_iff.1 hna) ha
  · exact ha
  · exact fun h => hnb (isNaN_iff.2 h)
  · exact ha

/-- The greater of two numbers is negative infinity only if neither is above it. -/
theorem of_maxNumber_eq {a b : Float} (ha : a ≠ Float.nan) (h : maxNumber a b = -infinity) :
    a = -infinity ∧ (b = Float.nan ∨ b = -infinity) := by
  unfold maxNumber at h
  split_ifs at h with hna hnb hlt
  · exact absurd (isNaN_iff.1 hna) ha
  · exact ⟨h, Or.inl (isNaN_iff.1 hnb)⟩
  · exact absurd (h ▸ hlt) (not_lt_neg_infinity a)
  · refine ⟨h, Or.inr ?_⟩
    by_contra hb
    exact hlt (h ▸ neg_infinity_lt (fun hn => hnb (isNaN_iff.2 hn)) hb)

theorem foldl_maxNumber_ne_nan : ∀ {xs : List Float} {a : Float}, a ≠ Float.nan →
    xs.foldl maxNumber a ≠ Float.nan
  | [], _, ha => ha
  | x :: xs, a, ha => by
    rw [List.foldl_cons]
    exact foldl_maxNumber_ne_nan (maxNumber_ne_nan ha)

theorem greatest_ne_nan (xs : List Float) : greatest xs ≠ Float.nan :=
  foldl_maxNumber_ne_nan (ne_nan_of_unpack neg_infinity_unpack)

theorem foldl_maxNumber_mem : ∀ (xs : List Float) (a : Float),
    xs.foldl maxNumber a = a ∨ xs.foldl maxNumber a ∈ xs
  | [], _ => Or.inl rfl
  | x :: xs, a => by
    have hchosen : maxNumber a x = a ∨ maxNumber a x = x := by
      unfold maxNumber
      split_ifs <;> simp
    rcases foldl_maxNumber_mem xs (maxNumber a x) with h | h
    · rw [List.foldl_cons, h, List.mem_cons]
      exact hchosen.imp_right Or.inl
    · exact Or.inr (List.mem_cons_of_mem x h)

theorem of_foldl_maxNumber_eq : ∀ {xs : List Float} {a : Float}, a ≠ Float.nan →
    xs.foldl maxNumber a = -infinity → a = -infinity ∧ ∀ x ∈ xs, x = Float.nan ∨ x = -infinity
  | [], _, _, h => ⟨h, by simp⟩
  | x :: xs, a, ha, h => by
    obtain ⟨hmax, hrest⟩ := of_foldl_maxNumber_eq (maxNumber_ne_nan ha) h
    obtain ⟨hfirst, hx⟩ := of_maxNumber_eq ha hmax
    exact ⟨hfirst, List.forall_mem_cons.2 ⟨hx, hrest⟩⟩

/-- The greatest number of a list is one of them, or there is none above negative infinity. -/
theorem greatest_mem {xs : List Float} (h : greatest xs ≠ -infinity) : greatest xs ∈ xs :=
  (foldl_maxNumber_mem xs (-infinity)).resolve_left h

end Greatest

end Number

open Number

namespace Choice

/-- What draws rely on from an exponential function. -/
structure ExpLaws (exp : Float → Float) : Prop where
  zero : exp 0.0 = 1.0
  nonneg : ∀ x, x ≠ Float.nan → 0.0 ≤ exp x

/-- A utility is that of an available alternative. -/
def Available (u : Float) : Prop := u ≠ Float.nan ∧ u ≠ -infinity

theorem greatest_eq_iff {us : List Float} :
    greatest us = -infinity ↔ ¬ ∃ u ∈ us, Available u := by
  refine ⟨fun h => ?_, fun h => ?_⟩
  · rintro ⟨u, hu, hnan, hinf⟩
    exact ((of_foldl_maxNumber_eq (ne_nan_of_unpack neg_infinity_unpack) h).2 u hu).elim hnan hinf
  · by_contra htop
    exact h ⟨_, greatest_mem htop, greatest_ne_nan us, htop⟩

/-- No alternative is available among NaNs and negative infinities only. -/
theorem not_available_iff {us : List Float} :
    (¬ ∃ u ∈ us, Available u) ↔ ∀ u ∈ us, u = Float.nan ∨ u = -infinity := by
  simp only [Available, not_exists, not_and_or, not_not, ne_eq, imp_iff_not_or]

section Weights

variable (exp : Float → Float) (us : List Float)

def weights : List Float := us.map (weight exp (greatest us))

def total : Float := (weights exp us).foldl (· + ·) 0.0

/-- The shares of the alternatives in the whole. -/
def shares : List Float := (weights exp us).map (· / total exp us)

@[simp] theorem length_weights : (weights exp us).length = us.length := List.length_map ..

@[simp] theorem length_shares : (shares exp us).length = us.length := by simp [shares]

end Weights

/-- What shares add up to from a start, the one at a place included. -/
def reachFrom (start : Float) (shares : List Float) (i : Nat) : Float :=
  (shares.take (i + 1)).foldl (· + ·) start

/-- What shares add up to from left to right, the one at a place included. -/
abbrev reach (shares : List Float) (i : Nat) : Float := reachFrom 0.0 shares i

@[simp] theorem reachFrom_nil (start : Float) (i : Nat) : reachFrom start [] i = start := rfl

@[simp] theorem reachFrom_cons_zero (start x : Float) (xs : List Float) :
    reachFrom start (x :: xs) 0 = start + x := rfl

@[simp] theorem reachFrom_cons_succ (start x : Float) (xs : List Float) (i : Nat) :
    reachFrom start (x :: xs) (i + 1) = reachFrom (start + x) xs i := rfl

variable {exp : Float → Float} {us : List Float} {draw : Float}

section Weights

theorem weight_nan {top : Float} : weight exp top Float.nan = 0.0 := by
  rw [weight, if_pos (isNaN_iff.2 rfl)]

/-- Below infinity a weight is that of the distance from the greatest utility. -/
theorem weight_eq {top u : Float} (htop : top ≠ infinity) (hu : u ≠ Float.nan) :
    weight exp top u = exp (u - top) := by
  rw [weight, if_neg (mt isNaN_iff.1 hu), if_neg (mt (beq_infinity_iff infinity_unpack).1 htop)]

theorem finite_top {top : Float} (htop : top ≠ infinity) (hbottom : top ≠ -infinity)
    (s : Float.Model.UnpackedFloat.Sign) : top.toModel.unpack ≠ .infinity s := fun h => by
  cases s
  · exact hbottom (eq_of_unpack_infinity h neg_infinity_unpack)
  · exact htop (eq_of_unpack_infinity h infinity_unpack)

theorem zero_le_one : (0.0 : Float) ≤ 1.0 := by decide +kernel

theorem zero_lt_one : (0.0 : Float) < 1.0 := by decide +kernel

theorem zero_le_zero : (0.0 : Float) ≤ 0.0 := by decide +kernel

theorem weight_nonneg (hexp : ExpLaws exp) {top : Float} (hnan : top ≠ Float.nan)
    (hbottom : top ≠ -infinity) (u : Float) : 0.0 ≤ weight exp top u := by
  by_cases hu : u = Float.nan
  · rw [hu, weight_nan]
    exact zero_le_zero
  by_cases htop : top = infinity
  · rw [weight, if_neg (mt isNaN_iff.1 hu), if_pos ((beq_infinity_iff infinity_unpack).2 htop)]
    split_ifs
    · exact zero_le_one
    · exact zero_le_zero
  · rw [weight_eq htop hu]
    exact hexp.nonneg _ (sub_ne_nan hu hnan (finite_top htop hbottom))

/-- The greatest utility has the weight one. -/
theorem weight_top (hzero : exp 0.0 = 1.0) {top : Float} (hnan : top ≠ Float.nan)
    (hbottom : top ≠ -infinity) : weight exp top top = 1.0 := by
  by_cases htop : top = infinity
  · rw [htop, weight, if_neg (mt isNaN_iff.1 (ne_nan_of_unpack infinity_unpack)),
      if_pos ((beq_infinity_iff infinity_unpack).2 rfl)]
    rfl
  · rw [weight_eq htop hnan, sub_self hnan (finite_top htop hbottom), hzero]

theorem foldl_add_nonneg : ∀ {ws : List Float} {start : Float}, (∀ w ∈ ws, 0.0 ≤ w) →
    0.0 ≤ start → 0.0 ≤ ws.foldl (· + ·) start
  | [], _, _, h => h
  | w :: ws, start, hws, h => by
    rw [List.forall_mem_cons] at hws
    rw [List.foldl_cons]
    exact foldl_add_nonneg hws.2 (add_nonneg h hws.1)

/-- A sum of numbers from zero on with one of them above zero. -/
theorem foldl_add_pos : ∀ {ws : List Float} {start : Float}, (∀ w ∈ ws, 0.0 ≤ w) →
    0.0 ≤ start → (0.0 < start ∨ ∃ w ∈ ws, 0.0 < w) → 0.0 < ws.foldl (· + ·) start
  | [], _, _, _, h => h.resolve_right (by simp)
  | w :: ws, start, hws, hstart, h => by
    rw [List.forall_mem_cons] at hws
    rw [List.foldl_cons]
    refine foldl_add_pos hws.2 (add_nonneg hstart hws.1) ?_
    rw [List.exists_mem_cons_iff] at h
    rcases h with hpos | hpos | hlater
    · exact Or.inl (add_pos_left hpos hws.1)
    · exact Or.inl (add_pos hstart hpos)
    · exact Or.inr hlater

theorem weights_nonneg (hexp : ExpLaws exp) (h : ∃ u ∈ us, Available u) :
    ∀ w ∈ weights exp us, 0.0 ≤ w := by
  have hbottom : greatest us ≠ -infinity := fun htop => greatest_eq_iff.1 htop h
  intro w hw
  obtain ⟨u, -, rfl⟩ := List.mem_map.1 hw
  exact weight_nonneg hexp (greatest_ne_nan us) hbottom u

theorem exists_weight (hzero : exp 0.0 = 1.0) (h : ∃ u ∈ us, Available u) :
    ∃ w ∈ weights exp us, 0.0 < w := by
  have hbottom : greatest us ≠ -infinity := fun htop => greatest_eq_iff.1 htop h
  refine ⟨_, List.mem_map_of_mem (greatest_mem hbottom), ?_⟩
  rw [weight_top hzero (greatest_ne_nan us) hbottom]
  exact zero_lt_one

theorem total_pos (hexp : ExpLaws exp) (h : ∃ u ∈ us, Available u) : 0.0 < total exp us :=
  foldl_add_pos (weights_nonneg hexp h) zero_le_zero (Or.inr (exists_weight hexp.zero h))

end Weights

section Picks

/-- The place `i` is the first one at which shares, added up from a start, exceed a draw. -/
structure Passes (start : Float) (shares : List Float) (draw : Float) (i : Nat) : Prop where
  exceeds : draw < reachFrom start shares i
  first : ∀ i' < i, ¬ draw < reachFrom start shares i'

/-- Shares, added up from a start, exceed a draw nowhere, and the place `i` is the last one with a
weight above zero. -/
structure FallsShort (start : Float) (weights shares : List Float) (draw : Float) (i : Nat) :
    Prop where
  short : ∀ i', ¬ draw < reachFrom start shares i'
  last : ∀ i' > i, ∀ w, weights[i']? = some w → w ≤ 0.0

theorem Passes.cons {start share : Float} {shares : List Float} {i : Nat}
    (hbelow : ¬ draw < start + share) (h : Passes (start + share) shares draw i) :
    Passes start (share :: shares) draw (i + 1) where
  exceeds := h.exceeds
  first
    | 0, _ => hbelow
    | i' + 1, hi => h.first i' (Nat.lt_of_succ_lt_succ hi)

theorem FallsShort.cons {start w share : Float} {ws shares : List Float} {i : Nat}
    (hbelow : ¬ draw < start + share) (h : FallsShort (start + share) ws shares draw i) :
    FallsShort start (w :: ws) (share :: shares) draw (i + 1) where
  short
    | 0 => hbelow
    | i' + 1 => h.short i'
  last
    | 0, hi, _, _ => absurd hi (by omega)
    | i' + 1, hi, w, hw => h.last i' (Nat.lt_of_succ_lt_succ hi) w (by simpa using hw)

/-- The place `i` has a weight above zero. It passes the draw with a share above zero, or the shares fall
short of the draw and it is the last such place. -/
structure Picks (draw sum start : Float) (ws : List Float) (i : Nat) (w : Float) : Prop where
  weight : ws[i]? = some w
  pos : 0.0 < w
  reason : 0.0 < w / sum ∧ Passes start (ws.map (· / sum)) draw i ∨
    FallsShort start ws (ws.map (· / sum)) draw i

/-- No place has a weight above zero, and the shares exceed the draw nowhere. -/
structure Idles (draw sum start : Float) (ws : List Float) : Prop where
  weights : ∀ w ∈ ws, w ≤ 0.0
  short : ∀ i, ¬ draw < reachFrom start (ws.map (· / sum)) i

section Cons

variable {sum start w w' : Float} {ws : List Float} {i : Nat}

theorem Picks.cons (hbelow : ¬ draw < start + w / sum)
    (h : Picks draw sum (start + w / sum) ws i w') : Picks draw sum start (w :: ws) (i + 1) w' where
  weight := by simpa using h.weight
  pos := h.pos
  reason := h.reason.imp (And.imp_right (Passes.cons hbelow)) (FallsShort.cons hbelow)

theorem Idles.cons (hzero : w ≤ 0.0) (hbelow : ¬ draw < start + w / sum)
    (h : Idles draw sum (start + w / sum) ws) : Idles draw sum start (w :: ws) where
  weights := List.forall_mem_cons.2 ⟨hzero, h.weights⟩
  short
    | 0 => hbelow
    | i + 1 => h.short i

/-- The last weight above zero is picked if the shares fall short of the draw. -/
theorem Idles.picks (hpos : 0.0 < w) (hbelow : ¬ draw < start + w / sum)
    (h : Idles draw sum (start + w / sum) ws) : Picks draw sum start (w :: ws) 0 w where
  weight := rfl
  pos := hpos
  reason := by
    refine Or.inr ⟨?_, ?_⟩
    · exact fun | 0 => hbelow
                | i + 1 => h.short i
    · rintro (- | i) hi w' hw'
      · exact absurd hi (by omega)
      · exact h.weights w' (List.mem_of_getElem? (by simpa using hw'))

/-- A weight of zero has a share of zero, which changes no sum without a sign. -/
theorem add_share_of_zero (hsum : 0.0 < sum) (hw : 0.0 ≤ w) (hzero : w ≤ 0.0)
    (hstart : Unsigned start) : start + w / sum = start := by
  obtain ⟨s, hs⟩ := eq_zero_of_le hw hzero
  obtain ⟨t, ht⟩ := zero_div hs hsum
  exact hstart.add_zero ht

end Cons

/-- What is picked from weights, counted from `j` on, when the sum so far has not passed the draw: a
place with a weight above zero, which passes the draw with a share above zero or after which there is
none; without weights above zero it is the last pick before them. -/
theorem pick_cases {sum : Float} (hsum : 0.0 < sum) : ∀ {ws : List Float} {start : Float} (j : Nat)
    (before : Option (Nat × Float)), (∀ w ∈ ws, 0.0 ≤ w) → Unsigned start → ¬ draw < start →
    (∃ i w, Picks draw sum start ws i w ∧
      pick draw sum j start before ws = some (j + i, w / sum)) ∨
    (Idles draw sum start ws ∧ pick draw sum j start before ws = before)
  | [], start, j, before, _, _, hbelow => Or.inr ⟨⟨by simp, by simpa using hbelow⟩, rfl⟩
  | w :: ws, start, j, before, hws, hstart, hbelow => by
    have hw : 0.0 ≤ w := hws w List.mem_cons_self
    have hrest : ∀ w ∈ ws, 0.0 ≤ w := fun w hw => hws w (List.mem_cons_of_mem _ hw)
    by_cases hzero : w ≤ 0.0
    · have hsame : start + w / sum = start := add_share_of_zero hsum hw hzero hstart
      have hstill : ¬ draw < start + w / sum := hsame.symm ▸ hbelow
      have hskip : pick draw sum j start before (w :: ws) =
          pick draw sum (j + 1) start before ws := by rw [pick, if_pos hzero]
      rw [hskip]
      rcases pick_cases hsum (j + 1) before hrest hstart hbelow with
        ⟨i, w', hpicks, hpick⟩ | ⟨hidles, hpick⟩
      · refine Or.inl ⟨i + 1, w', .cons hstill (by rwa [hsame]), ?_⟩
        rw [hpick, Nat.add_right_comm, Nat.add_assoc]
      · exact Or.inr ⟨.cons hzero hstill (by rwa [hsame]), hpick⟩
    · have hpos : 0.0 < w := (zero_le_iff.1 hw).resolve_right fun ⟨s, hs⟩ =>
        hzero (le_zero_of_unpack hs)
      have hshare : Unsigned (w / sum) := Unsigned.div hpos hsum
      by_cases hpass : draw < start + w / sum
      · have hreason := And.intro (hstart.pos_of_passes hshare hbelow hpass)
          (⟨hpass, by simp⟩ : Passes start ((w :: ws).map (· / sum)) draw 0)
        refine Or.inl ⟨0, w, ⟨rfl, hpos, Or.inl hreason⟩, ?_⟩
        simp only [pick, if_neg hzero, if_pos hpass, Nat.add_zero]
      · have hnext : pick draw sum j start before (w :: ws) =
            pick draw sum (j + 1) (start + w / sum) (some (j, w / sum)) ws := by
          simp only [pick, if_neg hzero, if_neg hpass]
        rw [hnext]
        rcases pick_cases hsum (j + 1) (some (j, w / sum)) hrest (hstart.add hshare) hpass with
          ⟨i, w', hpicks, hpick⟩ | ⟨hidles, hpick⟩
        · refine Or.inl ⟨i + 1, w', .cons hpass hpicks, ?_⟩
          rw [hpick, Nat.add_right_comm, Nat.add_assoc]
        · exact Or.inl ⟨0, w, hidles.picks hpos hpass, hpick⟩

/-- Nothing is drawn if no alternative is available. -/
theorem chooseBy_eq_none (h : ¬ ∃ u ∈ us, Available u) : chooseBy exp us draw = none := by
  have htop : (greatest us == -infinity) = true :=
    (beq_infinity_iff neg_infinity_unpack).2 (greatest_eq_iff.2 h)
  rw [chooseBy]
  exact if_pos htop

theorem not_lt_zero (hdraw : BoundKernel.isDraw draw = true) : ¬ draw < 0.0 := by
  simp only [BoundKernel.isDraw, Bool.and_eq_true, decide_eq_true_eq] at hdraw
  rw [lt_iff, unpack_zero]
  rcases zero_le_iff.1 hdraw.1 with h | ⟨s, h⟩
  · rcases zero_lt_iff.1 h with h | ⟨m, e, hm, h⟩ <;>
      simp [h, Float.Model.UnpackedFloat.lt, Float.Model.UnpackedFloat.compare]
  · simp [h, Float.Model.UnpackedFloat.lt, Float.Model.UnpackedFloat.compare]

/-- A draw picks from the weights if an alternative is available. -/
theorem chooseBy_eq_pick (h : ∃ u ∈ us, Available u) :
    chooseBy exp us draw = pick draw (total exp us) 0 0.0 none (weights exp us) := by
  have htop : ¬ (greatest us == -infinity) = true := fun htop =>
    greatest_eq_iff.1 ((beq_infinity_iff neg_infinity_unpack).1 htop) h
  rw [chooseBy]
  exact if_neg htop

/-- Some alternative is drawn if one is available. -/
theorem chooseBy_cases (hexp : ExpLaws exp) (h : ∃ u ∈ us, Available u)
    (hdraw : BoundKernel.isDraw draw = true) : ∃ i w,
      Picks draw (total exp us) 0.0 (weights exp us) i w ∧
      chooseBy exp us draw = some (i, w / total exp us) := by
  have hchoose : chooseBy exp us draw = _ := chooseBy_eq_pick h
  rcases pick_cases (total_pos hexp h) 0 none (weights_nonneg hexp h) unsigned_zero
    (not_lt_zero hdraw) with ⟨i, w, hpicks, hpick⟩ | ⟨hidles, -⟩
  · rw [Nat.zero_add] at hpick
    exact ⟨i, w, hpicks, hchoose.trans hpick⟩
  · obtain ⟨w, hw, hpos⟩ := exists_weight hexp.zero h
    exact absurd (hidles.weights w hw) (not_le_zero hpos)

/-- What is drawn is the first place where the shares exceed the draw, if there is one. -/
theorem chooseBy_passes (hexp : ExpLaws exp) (h : ∃ u ∈ us, Available u)
    (hdraw : BoundKernel.isDraw draw = true) : ∃ i p, chooseBy exp us draw = some (i, p) ∧
      (shares exp us)[i]? = some p ∧
      ∀ i', draw < reach (shares exp us) i' → Passes 0.0 (shares exp us) draw i := by
  obtain ⟨i, w, hpicks, hchoose⟩ := chooseBy_cases hexp h hdraw
  refine ⟨i, _, hchoose, by simp [shares, hpicks.weight], fun i' hexceeds => ?_⟩
  rcases hpicks.reason with ⟨-, hpasses⟩ | hshort
  · exact hpasses
  · exact absurd hexceeds (hshort.short i')

/-- How a draw comes by an alternative and its share: the share is above zero, or the shares fall short
of the draw and the alternative is the last one with a weight above zero. -/
structure Drawn (exp : Float → Float) (us : List Float) (draw : Float) (i : Nat) (p : Float) :
    Prop where
  chosen : chooseBy exp us draw = some (i, p)
  share : (shares exp us)[i]? = some p
  weighs : ∃ w, (weights exp us)[i]? = some w ∧ 0.0 < w
  reason : 0.0 < p ∨ FallsShort 0.0 (weights exp us) (shares exp us) draw i

theorem chooseBy_drawn (hexp : ExpLaws exp) (h : ∃ u ∈ us, Available u)
    (hdraw : BoundKernel.isDraw draw = true) : ∃ i p, Drawn exp us draw i p := by
  obtain ⟨i, w, hpicks, hchoose⟩ := chooseBy_cases hexp h hdraw
  exact ⟨i, _, hchoose, by simp [shares, hpicks.weight], ⟨w, hpicks.weight, hpicks.pos⟩,
    hpicks.reason.imp_left And.left⟩

end Picks

end Choice

namespace Batch

variable {p : Program} {src : Sources} {epilogue : Epilogue}

/-- What the rows of a block give is what its epilogue gives for some row of the block. -/
theorem of_mem_runFrom : ∀ {count first : Nat} {regs : Array Float} {rows : List (List Float)},
    runFrom p src epilogue count first regs = .ok rows → ∀ values ∈ rows,
      ∃ regs r, r < first + count ∧ epilogue regs r = .ok values
  | 0, _, _, _, h, values, hvalues => by
    cases h
    cases hvalues
  | count + 1, first, regs, rows, h, values, hvalues => by
    rw [runFrom] at h
    rcases heval : p.evalRow src first regs with _ | regs'
    · simp [heval] at h
    · simp only [heval] at h
      obtain ⟨own, hown, h⟩ := bind_eq_ok h
      obtain ⟨rest, hrest, h⟩ := bind_eq_ok h
      cases h
      rcases List.mem_cons.1 hvalues with rfl | hmem
      · exact ⟨regs', first, by omega, hown⟩
      · obtain ⟨regs, r, hr, hgives⟩ := of_mem_runFrom hrest values hmem
        exact ⟨regs, r, by omega, hgives⟩

theorem of_mem_run {b : Blocks} {count : Nat} {rows : List (List Float)}
    (h : run p src b count epilogue = .ok rows) :
    ∀ values ∈ rows, ∃ regs r, r < count ∧ epilogue regs r = .ok values := by
  obtain ⟨parts, hparts, h⟩ := bind_eq_ok h
  cases h
  intro values hvalues
  obtain ⟨part, hpart, hmem⟩ := List.mem_flatten.1 hvalues
  obtain ⟨block, hblock, hrun⟩ := exists_of_mem_right (forall₂_of_mapM hparts) part hpart
  obtain ⟨regs, r, hr, hgives⟩ := of_mem_runFrom hrun values hmem
  exact ⟨regs, r, hr.trans_le (le_of_mem_blocks b count block hblock), hgives⟩

end Batch

namespace BoundKernel

variable {b : BoundKernel} {exp : Float → Float} {coef : Matrix} {draws : Array Float}

theorem checkDraws_eq_ok : b.checkDraws draws = .ok () ↔
    draws.size = b.rows ∧ ∀ d ∈ draws, isDraw d = true := by
  unfold checkDraws
  split_ifs with hsize
  · exact ⟨nofun, fun h => absurd h.1 hsize⟩
  rw [not_ne_iff] at hsize
  dsimp only
  split
  · rename_i d i hbad
    refine ⟨nofun, fun h => ?_⟩
    have hmem : d ∈ draws.toList := List.fst_mem_of_mem_zipIdx (List.mem_of_find?_eq_some hbad)
    have hnot := List.find?_some hbad
    simp [h.2 d (Array.mem_toList_iff.1 hmem)] at hnot
  · rename_i hnone
    refine ⟨fun _ => ⟨hsize, fun d hd => ?_⟩, fun _ => rfl⟩
    obtain ⟨i, hi, rfl⟩ := Array.getElem_of_mem hd
    have hmem : (draws[i], i) ∈ draws.toList.zipIdx :=
      List.mem_zipIdx_iff_getElem?.2 (by simp [hi])
    have hall := List.find?_eq_none.1 (Option.eq_none_iff_forall_ne_some.2 fun (d, i) => hnone d i)
    simpa using hall _ hmem

/-- A draw is taken from the interval, also where none is given. -/
theorem isDraw_getD (h : ∀ d ∈ draws, isDraw d = true) (r : Nat) :
    isDraw (draws.getD r 0.0) = true := by
  rw [Array.getD_eq_getD_getElem?]
  rcases hget : draws[r]? with _ | d
  · decide +kernel
  · exact h d (Array.mem_of_getElem? hget)

/-- A run that is asked for in the right mode, with coefficients and draws that fit. -/
structure ReadyToDraw (b : BoundKernel) (coef : Matrix) (draws : Array Float) : Prop where
  mode : b.kernel.mode = .choice
  coefficients : coef.rows = b.program.outputs.length
  alternatives : coef.cols ≠ 0
  draws : b.checkDraws draws = .ok ()

theorem ReadyToDraw.isDraw_getD (hready : b.ReadyToDraw coef draws) (r : Nat) :
    isDraw (draws.getD r 0.0) = true :=
  BoundKernel.isDraw_getD (checkDraws_eq_ok.1 hready.draws).2 r

/-- A run of choices that succeeds was ready, and gives what its rows give. -/
theorem runChoiceBy_ok {c : Choices} (h : b.runChoiceBy exp coef draws = .ok c) :
    b.ReadyToDraw coef draws ∧ ∃ rows,
      b.runRows 2 (Batch.choiceEpilogueBy exp b.program coef draws) = .ok rows ∧
      c = ⟨(rows.map choiceOf).map (·.1), (rows.map choiceOf).map (·.2)⟩ := by
  obtain ⟨u, hmode, h⟩ := bind_eq_ok h
  obtain ⟨v, hcoef, h⟩ := bind_eq_ok h
  obtain ⟨w, hdraws, h⟩ := bind_eq_ok h
  split_ifs at h with hcols
  · cases h
  obtain ⟨rows, hrows, h⟩ := bind_eq_ok h
  cases h
  unfold require at hmode
  unfold checkCoefficients at hcoef
  split_ifs at hmode hcoef with hchoice houts
  exact ⟨⟨hchoice, houts, hcols, hdraws⟩, rows, hrows, rfl⟩

/-- Every probability that a run gives is one that a draw gives in some row. -/
theorem of_mem_probabilities {c : Choices} (h : b.runChoiceBy exp coef draws = .ok c) :
    ∀ p ∈ c.probabilities, ∃ regs r i, r < b.rows ∧
      isDraw (draws.getD r 0.0) = true ∧ Choice.chooseBy exp
        (Batch.utilities coef (b.program.outputValues regs)) (draws.getD r 0.0) = some (i, p) := by
  obtain ⟨hready, rows, hrows, rfl⟩ := runChoiceBy_ok h
  intro p hp
  obtain ⟨picked, hpicked, rfl⟩ := List.mem_map.1 hp
  obtain ⟨values, hvalues, rfl⟩ := List.mem_map.1 hpicked
  have hrun : Batch.run b.program b.data.sources b.kernel.blocks b.rows
      (Batch.choiceEpilogueBy exp b.program coef draws) = .ok rows := by
    unfold runRows at hrows
    rw [if_neg (by decide)] at hrows
    split at hrows
    · cases hrows
      assumption
    · cases hrows
  obtain ⟨regs, r, hr, hgives⟩ := Batch.of_mem_run hrun values hvalues
  unfold Batch.choiceEpilogueBy at hgives
  split at hgives
  · rename_i i share hchoose
    cases hgives
    exact ⟨regs, r, i, hr, hready.isDraw_getD r, hchoose⟩
  · cases hgives

end BoundKernel

namespace Sample

/-- A coarse exponential function, with the values of the exponential at zero and at -745. -/
def exp (x : Float) : Float :=
  if x.isNaN then x else if x < -745.0 then 0.0 else if x < 0.0 then Float.ofBits 1 else 1.0

theorem expLaws : Choice.ExpLaws exp where
  zero := by decide +kernel
  nonneg x hx := by
    unfold exp
    split_ifs with hnan
    · exact absurd (isNaN_iff.1 hnan) hx
    · decide +kernel
    · decide +kernel
    · decide +kernel

end Sample

namespace Choice

/-- A draw comes by some alternative if one is available. Its probability is above zero, unless the
shares fall short of the draw: then the alternative is the last one with a weight above zero, and
its probability is its share, as it was rounded. So it is with every probability that a run gives. -/
theorem drawn_of_available {exp : Float → Float} (hexp : ExpLaws exp) :
    (∀ us draw, (∃ u ∈ us, Available u) → BoundKernel.isDraw draw = true →
      ∃ i p, Drawn exp us draw i p) ∧
    ∀ (b : BoundKernel) coef draws c, b.runChoiceBy exp coef draws = .ok c →
      ∀ p ∈ c.probabilities, ∃ regs r i, r < b.rows ∧
        Drawn exp (Batch.utilities coef (b.program.outputValues regs)) (draws.getD r 0.0) i p := by
  refine ⟨fun us draw h hdraw => chooseBy_drawn hexp h hdraw, fun b coef draws c hrun p hp => ?_⟩
  obtain ⟨regs, r, i, hr, hdraw, hchoose⟩ := BoundKernel.of_mem_probabilities hrun p hp
  refine ⟨regs, r, i, hr, ?_⟩
  by_cases h : ∃ u ∈ Batch.utilities coef (b.program.outputValues regs), Available u
  · obtain ⟨i', p', hdrawn⟩ := chooseBy_drawn hexp h hdraw
    have hsame := hdrawn.chosen.symm.trans hchoose
    simp only [Option.some.injEq, Prod.mk.injEq] at hsame
    obtain ⟨rfl, rfl⟩ := hsame
    exact hdrawn
  · rw [chooseBy_eq_none h] at hchoose
    cases hchoose

/-- The second of two equal shares, beside one that is next to nothing. -/
theorem drawn_of_available_sample : ExpLaws Sample.exp ∧
    (∃ u ∈ [0.0, 0.0, -745.0], Available u) ∧ BoundKernel.isDraw 0.75 = true ∧
    Drawn Sample.exp [0.0, 0.0, -745.0] 0.75 1 0.5 := by
  have hsome : ∃ u ∈ [0.0, 0.0, -745.0], Available u :=
    ⟨0.0, by simp, by decide +kernel, by decide +kernel⟩
  have hdraw : BoundKernel.isDraw 0.75 = true := by decide +kernel
  obtain ⟨i, p, h⟩ := (drawn_of_available Sample.expLaws).1 _ _ hsome hdraw
  have hchoose : chooseBy Sample.exp [0.0, 0.0, -745.0] 0.75 = some (1, 0.5) := by decide +kernel
  have hsame := h.chosen.symm.trans hchoose
  simp only [Option.some.injEq, Prod.mk.injEq] at hsame
  obtain ⟨rfl, rfl⟩ := hsame
  exact ⟨Sample.expLaws, hsome, hdraw, h⟩

/-- Six equal shares fall short of the greatest draw below one, and the seventh is rounded to zero. -/
theorem exists_zero_share : ExpLaws Sample.exp ∧
    (∃ u ∈ [0.0, 0.0, 0.0, 0.0, 0.0, 0.0, -745.0], Available u) ∧
    BoundKernel.isDraw (Float.ofBits 0x3fefffffffffffff) = true ∧
    chooseBy Sample.exp [0.0, 0.0, 0.0, 0.0, 0.0, 0.0, -745.0] (Float.ofBits 0x3fefffffffffffff) =
      some (6, 0.0) ∧ ¬ (0.0 : Float) < 0.0 :=
  ⟨Sample.expLaws, ⟨0.0, by simp, by decide +kernel, by decide +kernel⟩, by decide +kernel,
    by decide +kernel, by decide +kernel⟩

end Choice

end LinkedTables
