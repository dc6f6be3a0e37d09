import LinkedTables.Data.Softmax
import LinkedTables.Proofs.Run.Aligned
import LinkedTables.Proofs.Run.Draws
import LinkedTables.Proofs.Run.Fused

/-!
# Choices in every row

A run of choices draws in every row from the sums of products that the kernel of the products gives
for that row. So it fails only for want of an alternative, in a row of nothing but NaNs and negative
infinities, and its choices follow the shares of the softmax of these sums
(`Kernel.runChoiceBy_softmax`): both subtract the greatest utility, and where none is a NaN or
infinity the weights are the exponentials of the same differences.

The number of a choice passes through a double on its way out, which keeps numbers up to `2 ^ 53`.
-/

namespace LinkedTables

open Number

namespace Matrix

theorem row_ofEntries {rows cols r : Nat} (hr : r < rows) (entry : Nat → Nat → Float) :
    (ofEntries rows cols entry).row r = (List.range cols).map (entry r) := by
  refine List.map_congr_left fun c hc => ?_
  have hc : c < cols := List.mem_range.1 hc
  rw [get, get?_ofEntries hr hc]
  rfl

variable {exp : Float → Float} {m : Matrix} {r : Nat}

theorem length_row (m : Matrix) (r : Nat) : (m.row r).length = m.cols := by simp [row]

theorem length_softmaxRow (xs : List Float) : (softmaxRow exp xs).length = xs.length := by
  simp [softmaxRow]

theorem get?_softmaxBy (hr : r < m.rows) {c : Nat} (hc : c < m.cols) :
    (m.softmaxBy exp).get? r c = (softmaxRow exp (m.row r))[c]? := by
  have hlen : c < (softmaxRow exp (m.row r)).length := by
    rw [length_softmaxRow, length_row]
    exact hc
  rw [softmaxBy, get?_ofEntries hr hc, List.getElem?_eq_getElem hlen]
  simp [hr, hlen]

theorem row_softmaxBy (hr : r < m.rows) : (m.softmaxBy exp).row r = softmaxRow exp (m.row r) := by
  have hlen : (softmaxRow exp (m.row r)).length = m.cols := by rw [length_softmaxRow, length_row]
  refine List.ext_getElem (by rw [length_row, hlen]; rfl) fun c hc hc' => ?_
  have hget : (m.softmaxBy exp).get? r c = (softmaxRow exp (m.row r))[c]? :=
    get?_softmaxBy hr (hlen ▸ hc')
  rw [List.getElem?_eq_getElem hc'] at hget
  simp only [row, List.getElem_map, List.getElem_range, get, hget, Option.getD_some]

end Matrix

namespace Choice

/-- The shares of a draw are those of the softmax where no utility is a NaN or infinity. -/
theorem shares_eq_softmaxRow {exp : Float → Float} {us : List Float}
    (h : ∀ u ∈ us, u ≠ Float.nan ∧ u ≠ infinity) : shares exp us = Matrix.softmaxRow exp us := by
  have htop : greatest us ≠ infinity := fun htop => by
    rcases foldl_maxNumber_mem us (-infinity) with hnone | hmem
    · exact infinity_ne (htop.symm.trans hnone)
    · exact (h _ hmem).2 htop
  have hweights : weights exp us = us.map fun u => exp (u - greatest us) :=
    List.map_congr_left fun u hu => weight_eq htop (h u hu).1
  rw [shares, total, hweights]
  rfl

end Choice

namespace BoundKernel

variable {b : BoundKernel} {good : Array Float → Prop} {outs : Nat → List Float}
  {exp : Float → Float} {coef : Matrix} {draws : Array Float}

/-- What the row of a number gives, from the values of its outputs. -/
def choiceAt (exp : Float → Float) (coef : Matrix) (draws : Array Float) (values : List Float)
    (r : Nat) : Except RowFault (List Float) :=
  match Choice.chooseBy exp (Batch.utilities coef values) (draws.getD r 0.0) with
  | some (choice, share) => .ok [ofIndex choice, share]
  | none => .error (.noAlternative r)

theorem choiceAt_eq_ok {values : List Float} {r : Nat} {picked : Nat × Float} :
    ((choiceAt exp coef draws values r).mapError RunFault.row).map choiceOf = .ok picked ↔
      ∃ i p, Choice.chooseBy exp (Batch.utilities coef values) (draws.getD r 0.0) = some (i, p) ∧
        picked = (toIndex (ofIndex i), p) := by
  unfold choiceAt
  rcases Choice.chooseBy exp (Batch.utilities coef values) (draws.getD r 0.0) with _ | ⟨i, p⟩
  · simp [Except.mapError, Except.map]
  · simp only [Except.mapError, Except.map, choiceOf, Except.ok.injEq, Option.some.injEq,
      Prod.mk.injEq]
    exact ⟨fun h => ⟨i, p, ⟨rfl, rfl⟩, h.symm⟩, fun ⟨_, _, ⟨hi, hp⟩, h⟩ => hi ▸ hp ▸ h.symm⟩

/-- A run of choices is a loop over the rows. -/
theorem ReadyToDraw.runChoiceBy_eq (hready : b.ReadyToDraw coef draws)
    (h : Batch.Steady b.program b.data.sources good outs b.rows) : b.runChoiceBy exp coef draws =
      ((List.range b.rows).mapM fun r =>
        ((choiceAt exp coef draws (outs r) r).mapError RunFault.row).map choiceOf).map
          fun picked => ⟨picked.map (·.1), picked.map (·.2)⟩ := by
  have hrun : Batch.run b.program b.data.sources b.kernel.blocks b.rows
      (Batch.choiceEpilogueBy exp b.program coef draws) =
      (List.range b.rows).mapM fun r => choiceAt exp coef draws (outs r) r :=
    Batch.run_eq h (choiceAt exp coef draws) (fun _ _ => rfl) b.kernel.blocks
  rw [mapM_mapError_map, runChoiceBy, require, if_pos hready.mode, checkCoefficients,
    if_pos hready.coefficients, hready.draws, if_neg hready.alternatives, runRows,
    if_neg (by decide), hrun]
  rcases (List.range b.rows).mapM fun r => choiceAt exp coef draws (outs r) r with f | rows <;> rfl

/-- A run of choices gives in every row what the draw of the row picks. -/
theorem ReadyToDraw.runChoiceBy_eq_ok (hready : b.ReadyToDraw coef draws)
    (h : Batch.Steady b.program b.data.sources good outs b.rows) {c : Choices} :
    b.runChoiceBy exp coef draws = .ok c ↔
      c.choices.length = b.rows ∧ c.probabilities.length = b.rows ∧ ∀ r < b.rows, ∃ i p,
        Choice.chooseBy exp (Batch.utilities coef (outs r)) (draws.getD r 0.0) = some (i, p) ∧
        c.choices[r]? = some (toIndex (ofIndex i)) ∧ c.probabilities[r]? = some p := by
  rw [hready.runChoiceBy_eq h]
  constructor
  · intro hrun
    rcases hloop : (List.range b.rows).mapM fun r =>
      ((choiceAt exp coef draws (outs r) r).mapError RunFault.row).map choiceOf with f | picked
    · rw [hloop] at hrun
      cases hrun
    · rw [hloop] at hrun
      cases hrun
      obtain ⟨hlen, hall⟩ := mapM_range_eq_ok.1 hloop
      refine ⟨by simpa using hlen, by simpa using hlen, fun r hr => ?_⟩
      obtain ⟨y, hy, hgives⟩ := hall r hr
      obtain ⟨i, p, hchoose, rfl⟩ := choiceAt_eq_ok.1 hgives
      exact ⟨i, p, hchoose, by simp [hy], by simp [hy]⟩
  · rintro ⟨hchoices, hprobs, hall⟩
    have hloop : ((List.range b.rows).mapM fun r =>
        ((choiceAt exp coef draws (outs r) r).mapError RunFault.row).map choiceOf) =
        .ok (c.choices.zip c.probabilities) := by
      refine mapM_range_eq_ok.2 ⟨by simp [hchoices, hprobs], fun r hr => ?_⟩
      obtain ⟨i, p, hchoose, hi, hp⟩ := hall r hr
      exact ⟨_, List.getElem?_zip_eq_some.2 ⟨hi, hp⟩, choiceAt_eq_ok.2 ⟨i, p, hchoose, rfl⟩⟩
    rw [hloop]
    simp [Except.map, List.map_fst_zip, List.map_snd_zip, hchoices, hprobs]

/-- A run that is ready fails only for want of an alternative in some row. -/
theorem ReadyToDraw.error (hready : b.ReadyToDraw coef draws)
    (h : Batch.Steady b.program b.data.sources good outs b.rows) {f : RunFault}
    (hf : b.runChoiceBy exp coef draws = .error f) : ∃ r < b.rows, f = .row (.noAlternative r) ∧
      Choice.chooseBy exp (Batch.utilities coef (outs r)) (draws.getD r 0.0) = none := by
  rw [hready.runChoiceBy_eq h] at hf
  rcases hloop : (List.range b.rows).mapM fun r =>
    ((choiceAt exp coef draws (outs r) r).mapError RunFault.row).map choiceOf with f' | picked
  · rw [hloop] at hf
    cases hf
    obtain ⟨r, hr, hfault⟩ := exists_error_of_mapM hloop
    unfold choiceAt at hfault
    split at hfault
    · cases hfault
    · rename_i hchoose
      cases hfault
      exact ⟨r, List.mem_range.1 hr, rfl, hchoose⟩
  · rw [hloop] at hf
    cases hf

/-- The products are those of the outputs, row by row. -/
theorem exists_products (h : Batch.Steady b.program b.data.sources good outs b.rows)
    (hmode : b.kernel.mode = .dot) (hcoef : coef.rows = b.program.outputs.length) :
    ∃ u, b.runDot coef = .ok u ∧ u.rows = b.rows ∧ u.cols = coef.cols ∧
      ∀ r < b.rows, u.row r = Batch.utilities coef (outs r) := by
  refine ⟨.ofEntries b.rows coef.cols fun r j => (Batch.utilities coef (outs r)).getD j 0.0, ?_,
    rfl, rfl, fun r hr => ?_⟩
  · rw [runDot_of_rows hcoef hmode]
    exact runMatrix_eq h (Batch.dotEpilogue b.program coef) (Batch.utilities coef) (fun _ _ => rfl)
      (fun _ _ => by simp [Batch.utilities_eq])
  · have hlen : (Batch.utilities coef (outs r)).length = coef.cols := by simp [Batch.utilities_eq]
    rw [Matrix.row_ofEntries hr, ← hlen, map_getD_range]

/-- A run of choices from sums of products fails exactly if in some row no alternative is available. -/
theorem ReadyToDraw.domain_iff (hready : b.ReadyToDraw coef draws) (hexp : Choice.ExpLaws exp)
    (h : Batch.Steady b.program b.data.sources good outs b.rows) :
    ((∃ f, b.runChoiceBy exp coef draws = .error f ∧ f.kind = .domain) ↔
      ∃ r < b.rows, ¬ ∃ x ∈ Batch.utilities coef (outs r), Choice.Available x) ∧
    ((∀ r < b.rows, ∃ x ∈ Batch.utilities coef (outs r), Choice.Available x) →
      ∃ c, b.runChoiceBy exp coef draws = .ok c) := by
  refine ⟨⟨?_, ?_⟩, fun hall => ?_⟩
  · rintro ⟨f, hf, -⟩
    obtain ⟨r, hr, -, hchoose⟩ := hready.error h hf
    refine ⟨r, hr, fun hsome => ?_⟩
    obtain ⟨i, p, hdrawn⟩ := Choice.chooseBy_drawn hexp hsome
      (hready.isDraw_getD r)
    rw [hdrawn.chosen] at hchoose
    cases hchoose
  · rintro ⟨r, hr, hnone⟩
    rcases hrun : b.runChoiceBy exp coef draws with f | c
    · obtain ⟨r', -, rfl, -⟩ := hready.error h hrun
      exact ⟨_, rfl, rfl⟩
    · obtain ⟨i, p, hchoose, -⟩ := ((hready.runChoiceBy_eq_ok h).1 hrun).2.2 r hr
      rw [Choice.chooseBy_eq_none hnone] at hchoose
      cases hchoose
  · rcases hrun : b.runChoiceBy exp coef draws with f | c
    · obtain ⟨r, hr, -, hchoose⟩ := hready.error h hrun
      obtain ⟨i, p, hdrawn⟩ := Choice.chooseBy_drawn hexp (hall r hr)
        (hready.isDraw_getD r)
      rw [hdrawn.chosen] at hchoose
      cases hchoose
    · exact ⟨c, rfl⟩

/-- A number below the count of alternatives comes out of a run as it is. -/
theorem toIndex_ofIndex {i : Nat} (hi : i < 2 ^ 53) : toIndex (ofIndex i) = i :=
  toIndex_of_whole (whole?_ofIndex hi) (hi.trans (by decide))

/-- A row of a run of choices follows the shares of its sums of products. -/
theorem ReadyToDraw.row_follows (hready : b.ReadyToDraw coef draws) (hexp : Choice.ExpLaws exp)
    (h : Batch.Steady b.program b.data.sources good outs b.rows) (hcols : coef.cols ≤ 2 ^ 53)
    {c : Choices} (hrun : b.runChoiceBy exp coef draws = .ok c) {r : Nat} (hr : r < b.rows) :
    ∃ j p, j < coef.cols ∧ c.choices[r]? = some j ∧ c.probabilities[r]? = some p ∧
      (Choice.shares exp (Batch.utilities coef (outs r)))[j]? = some p ∧
      ∀ i, draws.getD r 0.0 < Choice.reach (Choice.shares exp (Batch.utilities coef (outs r))) i →
        Choice.Passes 0.0 (Choice.shares exp (Batch.utilities coef (outs r))) (draws.getD r 0.0)
          j := by
  obtain ⟨i, p, hchoose, hi, hp⟩ := ((hready.runChoiceBy_eq_ok h).1 hrun).2.2 r hr
  by_cases hsome : ∃ x ∈ Batch.utilities coef (outs r), Choice.Available x
  · obtain ⟨i', p', hchoose', hshare, hpasses⟩ := Choice.chooseBy_passes hexp hsome
      (hready.isDraw_getD r)
    have hsame := hchoose.symm.trans hchoose'
    simp only [Option.some.injEq, Prod.mk.injEq] at hsame
    obtain ⟨rfl, rfl⟩ := hsame
    have hlt : i < coef.cols := by
      have := (List.getElem?_eq_some_iff.1 hshare).1
      simpa [Batch.utilities_eq] using this
    rw [toIndex_ofIndex (hlt.trans_le hcols)] at hi
    exact ⟨i, p, hlt, hi, hp, hshare, hpasses⟩
  · rw [Choice.chooseBy_eq_none hsome] at hchoose
    cases hchoose

end BoundKernel

namespace Sample

/-- The numbers of the series. -/
def seriesSet : ExprSet := ⟨[("x", "x")], []⟩

/-- Two alternatives that are alike. -/
def alike : Matrix := .ofEntries 1 2 fun _ _ => 1.0

end Sample

namespace Kernel

variable {g : LinkGraph} {set : ExprSet} {k k' : Kernel} {s s' : Settings} {dir dir' : Directory}
  {now now' : UInt64} {b b' : BoundKernel}

/-- The kernels of choices and of products that are made of one set and bound to one graph leave the
same outputs in every row. -/
theorem steady_of_modes (hg : g.Built) (hbound : g.Bounded)
    (hk : ((Compiler.fresh s).compile dir now g set .choice).answer = .ok k)
    (hk' : ((Compiler.fresh s').compile dir' now' g set .dot).answer = .ok k')
    (hb : k.bind g = .ok b) (hb' : k'.bind g = .ok b') : ∃ good good' outs,
      Batch.Steady b.program b.data.sources good outs b.rows ∧
      Batch.Steady b'.program b'.data.sources good' outs b'.rows ∧ b.rows = b'.rows ∧
      b.kernel.mode = .choice ∧ b'.kernel.mode = .dot ∧
      b.program.outputs.length = set.entries.length ∧
      b'.program.outputs.length = set.entries.length := by
  obtain ⟨a, sources, order, slots, ha, hmade⟩ := madeOf_of_fresh hg hk
  obtain ⟨a', sources', order', slots', ha', hmade'⟩ := madeOf_of_fresh hg hk'
  obtain rfl : a = a' := Except.ok.inj (ha.symm.trans ha')
  obtain ⟨sc, plans, hplanned⟩ := hmade.planned
  obtain ⟨sc', plans', hplanned'⟩ := hmade'.planned
  obtain rfl : sources = sources' :=
    Except.ok.inj (hplanned.readAll.symm.trans hplanned'.readAll)
  obtain ⟨⟨t, ht, -, hhead⟩, -, hsteady⟩ := hmade.steady hg hg hb rfl hbound LinkGraph.tells_tabled
  obtain ⟨⟨t', ht', -, hhead'⟩, -, hsteady'⟩ :=
    hmade'.steady hg hg hb' rfl hbound LinkGraph.tells_tabled
  obtain rfl : t = t' := Except.ok.inj (ht.symm.trans ht')
  have hdim : b.data.rowDim = b'.data.rowDim := Option.some.inj (hhead.symm.trans hhead')
  rw [← hdim] at hsteady'
  exact ⟨_, _, _, hsteady, hsteady', congrArg Dimension.size hdim,
    by rw [(gather_of_bind hb).1, hmade.mode_eq], by rw [(gather_of_bind hb').1, hmade'.mode_eq],
    hmade.length_outputs hb, hmade'.length_outputs hb'⟩

/-- The choices of a set over a graph and the products of the same set. For coefficients with a row for
each expression and draws from the interval, one for each row, a run of choices fails, for want of
an alternative, exactly if in some row all products are NaNs or negative infinities. Otherwise it
gives a choice among the columns and a probability for each row. In a row without NaN and infinity
the probability is the share that the softmax of the products gives the choice, and if the shares,
added up from left to right, exceed the draw somewhere then they do so first at the choice. -/
theorem runChoiceBy_softmax (hg : g.Built) (hbound : g.Bounded)
    (hk : ((Compiler.fresh s).compile dir now g set .choice).answer = .ok k)
    (hk' : ((Compiler.fresh s').compile dir' now' g set .dot).answer = .ok k')
    (hb : k.bind g = .ok b) (hb' : k'.bind g = .ok b') {exp : Float → Float}
    (hexp : Choice.ExpLaws exp) {coef : Matrix} (hrows : coef.rows = set.entries.length)
    (hcols : 0 < coef.cols) (hwidth : coef.cols ≤ 2 ^ 53) {draws : Array Float}
    (hsize : draws.size = b.rows) (hdraws : ∀ d ∈ draws, 0.0 ≤ d ∧ d < 1.0) :
    ∃ u, b'.runDot coef = .ok u ∧ u.rows = b.rows ∧ u.cols = coef.cols ∧
      ((∃ f, b.runChoiceBy exp coef draws = .error f ∧ f.kind = .domain) ↔
        ∃ r < b.rows, ∀ x ∈ u.row r, x = Float.nan ∨ x = -infinity) ∧
      ((¬ ∃ r < b.rows, ∀ x ∈ u.row r, x = Float.nan ∨ x = -infinity) →
        ∃ c, b.runChoiceBy exp coef draws = .ok c ∧ c.choices.length = b.rows ∧
          c.probabilities.length = b.rows ∧ ∀ r < b.rows, ∃ j p, j < coef.cols ∧
            c.choices[r]? = some j ∧ c.probabilities[r]? = some p ∧
            ((∀ x ∈ u.row r, x ≠ Float.nan ∧ x ≠ infinity) →
              (u.softmaxBy exp).get? r j = some p ∧
              ∀ i, draws.getD r 0.0 < Choice.reach ((u.softmaxBy exp).row r) i →
                Choice.Passes 0.0 ((u.softmaxBy exp).row r) (draws.getD r 0.0) j)) := by
  obtain ⟨good, good', outs, h, h', hsame, hchoice, hdot, houts, houts'⟩ :=
    steady_of_modes hg hbound hk hk' hb hb'
  have hready : b.ReadyToDraw coef draws :=
    ⟨hchoice, hrows.trans houts.symm, hcols.ne', BoundKernel.checkDraws_eq_ok.2
      ⟨hsize, fun d hd => by simpa [BoundKernel.isDraw] using hdraws d hd⟩⟩
  obtain ⟨u, hu, hurows, hucols, hrow⟩ :=
    BoundKernel.exists_products h' hdot (hrows.trans houts'.symm)
  rw [← hsame] at hurows hrow
  obtain ⟨hdomain, hok⟩ := hready.domain_iff hexp h
  have hnone : (∃ r < b.rows, ∀ x ∈ u.row r, x = Float.nan ∨ x = -infinity) ↔
      ∃ r < b.rows, ¬ ∃ x ∈ Batch.utilities coef (outs r), Choice.Available x :=
    exists_congr fun r => and_congr_right fun hr => by rw [hrow r hr, Choice.not_available_iff]
  refine ⟨u, hu, hurows, hucols, hdomain.trans hnone.symm, fun hall => ?_⟩
  obtain ⟨c, hrun⟩ := hok fun r hr => by
    by_contra hno
    exact hall (hnone.2 ⟨r, hr, hno⟩)
  obtain ⟨hchoices, hprobs, -⟩ := (hready.runChoiceBy_eq_ok h).1 hrun
  refine ⟨c, hrun, hchoices, hprobs, fun r hr => ?_⟩
  obtain ⟨j, p, hj, hcj, hcp, hshare, hpasses⟩ := hready.row_follows hexp h hwidth hrun hr
  refine ⟨j, p, hj, hcj, hcp, fun hplain => ?_⟩
  have hur : r < u.rows := hurows.symm ▸ hr
  rw [Matrix.get?_softmaxBy hur (hucols.symm ▸ hj), Matrix.row_softmaxBy hur, hrow r hr,
    ← Choice.shares_eq_softmaxRow fun x hx => hplain x (hrow r hr ▸ hx)]
  exact ⟨hshare, hpasses⟩

/-- The three numbers of the series, with two alternatives of equal products. -/
theorem runChoiceBy_softmax_series : ∃ k k' b b' u c,
    ((Compiler.fresh .default).compile .absent 0 (Sample.series .empty) Sample.seriesSet
      .choice).answer = .ok k ∧
    ((Compiler.fresh .default).compile .absent 0 (Sample.series .empty) Sample.seriesSet
      .dot).answer = .ok k' ∧
    k.bind (Sample.series .empty) = .ok b ∧ k'.bind (Sample.series .empty) = .ok b' ∧
    b'.runDot Sample.alike = .ok u ∧
    b.runChoiceBy Sample.exp Sample.alike #[0.25, 0.5, 0.75] = .ok c ∧ c.choices = [0, 1, 1] ∧
    c.probabilities = [0.5, 0.5, 0.5] ∧ ∀ r < 3, ∃ j p, c.choices[r]? = some j ∧ c.probabilities[r]? = some p ∧
      (u.softmaxBy Sample.exp).get? r j = some p := by
  have hchosen : (((Compiler.fresh .default).compile .absent 0 (Sample.series .empty)
      Sample.seriesSet .choice).answer.toOption.bind fun k =>
        (k.bind (Sample.series .empty)).toOption.map fun b => (b.rows, (b.runChoiceBy Sample.exp
          Sample.alike #[0.25, 0.5, 0.75]).toOption.map fun c => (c.choices, c.probabilities))) =
      some (3, some ([0, 1, 1], [0.5, 0.5, 0.5])) := by decide +kernel
  have hproducts : (((Compiler.fresh .default).compile .absent 0 (Sample.series .empty)
      Sample.seriesSet .dot).answer.toOption.bind fun k =>
        (k.bind (Sample.series .empty)).toOption.map fun b =>
          (b.runDot Sample.alike).toOption.map Matrix.nested) =
      some (some [[10, 10], [20, 20], [30, 30]]) := by decide +kernel
  obtain ⟨k, hk, hchosen⟩ := Option.bind_eq_some_iff.1 hchosen
  obtain ⟨b, hb, hchosen⟩ := Option.map_eq_some_iff.1 hchosen
  simp only [Prod.mk.injEq] at hchosen
  obtain ⟨c, hc, hpicks⟩ := Option.map_eq_some_iff.1 hchosen.2
  simp only [Prod.mk.injEq] at hpicks
  obtain ⟨k', hk', hproducts⟩ := Option.bind_eq_some_iff.1 hproducts
  obtain ⟨b', hb', hproducts⟩ := Option.map_eq_some_iff.1 hproducts
  obtain ⟨u, hu, hnested⟩ := Option.map_eq_some_iff.1 hproducts
  have hbound : (Sample.series .empty).Bounded := by decide +kernel
  have hrows : Sample.alike.rows = Sample.seriesSet.entries.length := rfl
  have hsize : (#[0.25, 0.5, 0.75] : Array Float).size = b.rows := hchosen.1.symm
  obtain ⟨u', hu', hurows, -, -, hok⟩ := runChoiceBy_softmax (GraphCall.made_built _) hbound
    (eq_ok_of_toOption hk) (eq_ok_of_toOption hk') (eq_ok_of_toOption hb) (eq_ok_of_toOption hb')
    Sample.expLaws hrows (by decide) (by decide) hsize (by decide +kernel)
  obtain rfl : u = u' := Except.ok.inj ((eq_ok_of_toOption hu).symm.trans hu')
  have hplain : ∀ r < b.rows, ∀ x ∈ u.row r, (x ≠ Float.nan ∧ x ≠ infinity) ∧ x ≠ -infinity := by
    have hall : ∀ row ∈ u.nested, ∀ x ∈ row, (x ≠ Float.nan ∧ x ≠ infinity) ∧ x ≠ -infinity := by
      rw [hnested]
      decide +kernel
    exact fun r hr => hall _ (List.mem_map_of_mem (List.mem_range.2 (hurows.symm ▸ hr)))
  have hsome : ¬ ∃ r < b.rows, ∀ x ∈ u.row r, x = Float.nan ∨ x = -infinity := by
    rintro ⟨r, hr, hnone⟩
    have hne : u.row r ≠ [] := fun h => by
      have hmem : u.row r ∈ u.nested :=
        List.mem_map_of_mem (List.mem_range.2 (hurows.symm ▸ hr))
      rw [hnested, h] at hmem
      exact absurd hmem (by simp)
    obtain ⟨x, hx⟩ := List.exists_mem_of_ne_nil _ hne
    have := hplain r hr x hx
    exact (hnone x hx).elim this.1.1 this.2
  obtain ⟨c', hc', -, -, hall⟩ := hok hsome
  obtain rfl : c = c' := Except.ok.inj ((eq_ok_of_toOption hc).symm.trans hc')
  refine ⟨k, k', b, b', u, c, eq_ok_of_toOption hk, eq_ok_of_toOption hk', eq_ok_of_toOption hb,
    eq_ok_of_toOption hb', hu', hc', hpicks.1, hpicks.2, fun r hr => ?_⟩
  have hr : r < b.rows := hchosen.1.symm ▸ hr
  obtain ⟨j, p, -, hj, hp, hshare⟩ := hall r hr
  exact ⟨j, p, hj, hp, (hshare fun x hx => (hplain r hr x hx).1).1⟩

end Kernel

end LinkedTables
