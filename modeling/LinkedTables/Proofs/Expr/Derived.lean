import LinkedTables.Proofs.Data.Loops
import LinkedTables.Proofs.Expr.Bare
import LinkedTables.Proofs.Expr.Derivation

/-!
# The parser and the grammar agree

What a function of the parser takes off its tokens is derived by the rule of the same name, with the
tree that it gives (`chain_derives` and the others, along the functions). The other way round, each
function reads a derivation of its rule back and goes no further, if what follows is something that
the rule stops before (`Derivation.reads`, along the derivation).

So a list of tokens is parsed exactly if it has a derivation, and it has at most one
(`parse_iff_derived`).
-/

namespace LinkedTables

namespace Grammar

abbrev kinds (ts : List Token) : List TokenKind := ts.map Token.kind

/-- The tokens before the rest are an expression of the rule. -/
def Derives (r : Rule) (m : r.Meaning) (ts rest : List Token) : Prop :=
  ∃ d : Derivation r, d.tree = m ∧ kinds ts = d.tokens ++ kinds rest

/-- Arguments with commas between them, and the parenthesis after them. -/
def argumentTokens : List (Derivation (.chain .disjunction)) → List TokenKind
  | [] => [.rparen]
  | [a] => a.tokens ++ [.rparen]
  | a :: b :: more => a.tokens ++ .comma :: argumentTokens (b :: more)

def pathTokens : List String → List TokenKind
  | [] => []
  | first :: names => .ident first :: names.flatMap fun n => [.dot, .ident n]

section Derives

variable {eof : Nat} {ts rest : List Token} {e : Expr}

theorem pathRest_derives : ∀ {path path' : List String} {stop stop' : Nat} {ts : List Token},
    pathRest eof path stop ts = .ok ((path', stop'), rest) → ∃ names, path' = path ++ names ∧
      kinds ts = (names.flatMap fun n => [.dot, .ident n]) ++ kinds rest
  | path, _, _, _, [], h => by
    cases h
    exact ⟨[], by simp, rfl⟩
  | path, _, _, _, [⟨k, _, _⟩], h => by
    cases k <;> cases h <;> exact ⟨[], by simp, rfl⟩
  | path, path', _, stop', ⟨k, _, _⟩ :: ⟨m, _, span⟩ :: ts, h => by
    cases k with
    | dot =>
      cases m with
      | ident s =>
        have hmore : pathRest eof (path ++ [s]) span.stop ts = .ok ((path', stop'), rest) := h
        obtain ⟨names, rfl, hts⟩ := pathRest_derives hmore
        exact ⟨s :: names, by simp, by simp [kinds, ← hts]⟩
      | _ => cases h
    | _ =>
      cases h
      exact ⟨[], by simp, rfl⟩

theorem variable_derives {path : List String} {span : Span}
    (h : ((variable_ span path).map fun e => (e, ts)) = .ok (e, rest)) : ∃ d : Derivation .atom,
      d.tree = e.bare ∧ pathTokens path ++ kinds ts = d.tokens ++ kinds rest := by
  match path, h with
  | [n], h =>
    cases h
    exact ⟨.name n, rfl, rfl⟩
  | [table, n], h =>
    cases h
    exact ⟨.dotted table n, rfl, rfl⟩

theorem callee_derives {path : List String} {start : Nat} {func : Func}
    (h : callee start path = .ok func) : ∃ library f, Func.ofName? f = some func ∧
      pathTokens path = libraryTokens library ++ [.ident f] := by
  have hnamed : ∀ {f : String}, callee start [f] = .ok func → Func.ofName? f = some func :=
    fun {f} h => by
      simp only [callee] at h
      split at h <;> cases h
      assumption
  unfold callee at h
  split at h
  · exact ⟨none, _, hnamed h, rfl⟩
  · exact ⟨some .np, _, hnamed h, rfl⟩
  · exact ⟨some .numpy, _, hnamed h, rfl⟩
  · cases h

theorem call_derives {func : Func} {args : List Expr} {span : Span}
    {ds : List (Derivation (.chain .disjunction))} (h : call func args span = .ok e)
    (hargs : args.map Expr.bare = ds.map Derivation.tree) :
    ∃ d : Derivation (.arguments func), d.tree = e.bare ∧ d.tokens = argumentTokens ds := by
  unfold call at h
  split at h
  · cases h
    obtain ⟨a, rfl, ha⟩ := List.map_eq_singleton_iff.1 hargs.symm
    exact ⟨.one _ a, by simp [Expr.bare, ha], rfl⟩
  · cases h
    obtain ⟨a, more, rfl, ha, hmore⟩ := List.map_eq_cons_iff.1 hargs.symm
    obtain ⟨b, rfl, hb⟩ := List.map_eq_singleton_iff.1 hmore
    exact ⟨.two _ a b, by simp [Expr.bare, ha, hb], rfl⟩
  · cases h
    obtain ⟨a, more, rfl, ha, hmore⟩ := List.map_eq_cons_iff.1 hargs.symm
    obtain ⟨b, more, rfl, hb, hmore⟩ := List.map_eq_cons_iff.1 hmore
    obtain ⟨c, rfl, hc⟩ := List.map_eq_singleton_iff.1 hmore
    exact ⟨.three _ a b c, by simp [Expr.bare, ha, hb, hc], rfl⟩
  · cases h

theorem closing_derives {what : Wanted} {stop : Nat} (h : closing eof what ts = .ok (stop, rest)) :
    kinds ts = .rparen :: kinds rest := by
  match ts, h with
  | t :: ts, h =>
    rw [closing] at h
    split_ifs at h with hkind
    cases h
    simp [hkind]

mutual

theorem chain_derives : ∀ {fuel : Nat} {level : Level} {ts rest : List Token} {e : Expr},
    chain eof fuel level ts = .ok (e, rest) → Derives (.chain level) e.bare ts rest
  | fuel + 1, level, ts, rest, e, h => by
    rw [chain] at h
    obtain ⟨⟨a, mid⟩, ha, hmore⟩ := bind_eq_ok h
    obtain ⟨d, hd, hts⟩ := operand_derives ha
    obtain ⟨more, htree, hmid⟩ := chainRest_derives hmore
    refine ⟨d.chain more, ?_, by simp [hts, hmid]⟩
    simp only [Derivation.tree, hd, htree]

theorem chainRest_derives : ∀ {fuel : Nat} {level : Level} {a : Expr} {ts rest : List Token}
    {e : Expr}, chainRest eof fuel level a ts = .ok (e, rest) →
    ∃ d : Derivation (.more level), d.tree a.bare = e.bare ∧ kinds ts = d.tokens ++ kinds rest
  | _ + 1, _, _, [], _, _, h => by
    cases h
    exact ⟨.done, rfl, rfl⟩
  | fuel + 1, level, a, t :: ts, rest, e, h => by
    rw [chainRest] at h
    split at h
    · cases h
      exact ⟨.done, rfl, rfl⟩
    · rename_i op hop
      obtain ⟨⟨b, mid⟩, hb, hmore⟩ := bind_eq_ok h
      obtain ⟨d, hd, hts⟩ := operand_derives hb
      obtain ⟨more, htree, hmid⟩ := chainRest_derives hmore
      refine ⟨.next t.kind op hop d more, ?_, by simp [hts, hmid]⟩
      simp only [Derivation.tree, hd]
      exact htree

theorem operand_derives : ∀ {fuel : Nat} {level : Level} {ts rest : List Token} {e : Expr},
    operand eof fuel level ts = .ok (e, rest) → Derives (.operand level) e.bare ts rest
  | fuel + 1, .disjunction, _, _, _, h => by
    obtain ⟨d, hd, hts⟩ := chain_derives h
    exact ⟨d.conjunction, hd, hts⟩
  | fuel + 1, .conjunction, _, _, _, h => by
    obtain ⟨d, hd, hts⟩ := negation_derives h
    exact ⟨.negation d, hd, hts⟩
  | fuel + 1, .sum, _, _, _, h => by
    obtain ⟨d, hd, hts⟩ := chain_derives h
    exact ⟨d.product, hd, hts⟩
  | fuel + 1, .product, _, _, _, h => by
    obtain ⟨d, hd, hts⟩ := signed_derives h
    exact ⟨.signed d, hd, hts⟩

theorem negation_derives : ∀ {fuel : Nat} {ts rest : List Token} {e : Expr},
    negation eof fuel ts = .ok (e, rest) → Derives .negation e.bare ts rest
  | fuel + 1, [], _, _, h => by
    obtain ⟨d, hd, hts⟩ := comparison_derives h
    exact ⟨.comparison d, hd, hts⟩
  | fuel + 1, t :: ts, rest, e, h => by
    rw [negation] at h
    split_ifs at h with hkind
    · obtain ⟨⟨a, mid⟩, ha, hrest⟩ := bind_eq_ok h
      cases hrest
      obtain ⟨d, hd, hts⟩ := negation_derives ha
      exact ⟨.not d, by simp [Expr.bare, hd],
        by simp [hkind, hts]⟩
    · obtain ⟨d, hd, hts⟩ := comparison_derives h
      exact ⟨.comparison d, hd, hts⟩

theorem comparison_derives : ∀ {fuel : Nat} {ts rest : List Token} {e : Expr},
    comparison eof fuel ts = .ok (e, rest) → Derives .comparison e.bare ts rest
  | fuel + 1, ts, rest, e, h => by
    rw [comparison] at h
    obtain ⟨⟨a, mid⟩, ha, hmid⟩ := bind_eq_ok h
    obtain ⟨d, hd, hts⟩ := chain_derives ha
    rcases mid with _ | ⟨t, mid⟩
    · cases hmid
      exact ⟨d.alone, hd, hts⟩
    simp only at hmid
    split at hmid
    · cases hmid
      exact ⟨d.alone, hd, hts⟩
    · rename_i op hop
      obtain ⟨⟨b, after⟩, hb, hafter⟩ := bind_eq_ok hmid
      obtain ⟨d', hd', hmid'⟩ := chain_derives hb
      -- a second comparison after this one is refused
      have hresult : e = .binary op a b none ∧ rest = after := by
        rcases after with _ | ⟨t', after⟩
        · cases hafter
          exact ⟨rfl, rfl⟩
        · simp only at hafter
          split_ifs at hafter
          cases hafter
          exact ⟨rfl, rfl⟩
      obtain ⟨rfl, rfl⟩ := hresult
      exact ⟨d.compared t.kind op hop d', by simp [Expr.bare, hd, hd'],
        by simp [hts, hmid']⟩

theorem signed_derives : ∀ {fuel : Nat} {ts rest : List Token} {e : Expr},
    signed eof fuel ts = .ok (e, rest) → Derives .signed e.bare ts rest
  | fuel + 1, [], _, _, h => by
    obtain ⟨d, hd, hts⟩ := power_derives h
    exact ⟨.power d, hd, hts⟩
  | fuel + 1, t :: ts, rest, e, h => by
    rw [signed] at h
    split at h
    · rename_i hkind
      obtain ⟨⟨a, mid⟩, ha, hrest⟩ := bind_eq_ok h
      cases hrest
      obtain ⟨d, hd, hts⟩ := signed_derives ha
      exact ⟨d.sign .minus, by simp [Sign.apply, hd, Expr.bare_negated],
        by simp [Sign.token, hkind, hts]⟩
    · rename_i hkind
      obtain ⟨d, hd, hts⟩ := signed_derives h
      exact ⟨d.sign .plus, hd, by simp [Sign.token, hkind, hts]⟩
    · rename_i hkind
      obtain ⟨⟨a, mid⟩, ha, hrest⟩ := bind_eq_ok h
      cases hrest
      obtain ⟨d, hd, hts⟩ := signed_derives ha
      exact ⟨d.sign .bang, by simp [Sign.apply, Expr.bare, hd],
        by simp [Sign.token, hkind, hts]⟩
    · obtain ⟨d, hd, hts⟩ := power_derives h
      exact ⟨.power d, hd, hts⟩

theorem power_derives : ∀ {fuel : Nat} {ts rest : List Token} {e : Expr},
    power eof fuel ts = .ok (e, rest) → Derives .power e.bare ts rest
  | fuel + 1, ts, rest, e, h => by
    rw [power] at h
    obtain ⟨⟨a, mid⟩, ha, hmid⟩ := bind_eq_ok h
    obtain ⟨d, hd, hts⟩ := atom_derives ha
    rcases mid with _ | ⟨t, mid⟩
    · cases hmid
      exact ⟨d.base, hd, hts⟩
    simp only at hmid
    split_ifs at hmid with hkind
    · obtain ⟨⟨b, after⟩, hb, hafter⟩ := bind_eq_ok hmid
      cases hafter
      obtain ⟨d', hd', hmid'⟩ := signed_derives hb
      exact ⟨d.raised d', by simp [Expr.bare, hd, hd'],
        by simp [hts, hmid', hkind]⟩
    · cases hmid
      exact ⟨d.base, hd, hts⟩

theorem atom_derives : ∀ {fuel : Nat} {ts rest : List Token} {e : Expr},
    atom eof fuel ts = .ok (e, rest) → Derives .atom e.bare ts rest
  | fuel + 1, t :: ts, rest, e, h => by
    rw [atom] at h
    split at h
    · rename_i x hkind
      cases h
      exact ⟨.number x, rfl, by simp [hkind]⟩
    · rename_i b hkind
      cases h
      exact ⟨.bool b, rfl, by simp [hkind]⟩
    · rename_i hkind
      obtain ⟨⟨a, mid⟩, ha, hmid⟩ := bind_eq_ok h
      obtain ⟨⟨stop, after⟩, hclosing, hafter⟩ := bind_eq_ok hmid
      cases hafter
      obtain ⟨d, hd, hts⟩ := chain_derives ha
      exact ⟨d.paren, hd, by simp [hkind, hts, closing_derives hclosing]⟩
    · rename_i first hkind
      obtain ⟨⟨⟨path, stop⟩, mid⟩, hpath, hmid⟩ := bind_eq_ok h
      obtain ⟨names, rfl, hts⟩ := pathRest_derives hpath
      obtain ⟨d, hd, htokens⟩ := named_derives hmid
      refine ⟨d, hd, ?_⟩
      rw [← htokens]
      simp [pathTokens, hkind, hts]
    · cases h

theorem named_derives : ∀ {fuel : Nat} {path : List String} {span : Span} {ts rest : List Token}
    {e : Expr}, named eof fuel path span ts = .ok (e, rest) → ∃ d : Derivation .atom,
      d.tree = e.bare ∧ pathTokens path ++ kinds ts = d.tokens ++ kinds rest
  | _ + 1, path, span, [], rest, e, h => variable_derives h
  | fuel + 1, path, span, t :: ts, rest, e, h => by
    rw [named] at h
    split_ifs at h with hkind
    · obtain ⟨func, hfunc, h⟩ := bind_eq_ok h
      obtain ⟨⟨⟨args, stop⟩, after⟩, hargs, h⟩ := bind_eq_ok h
      obtain ⟨e', hcall, h⟩ := bind_eq_ok h
      cases h
      obtain ⟨library, f, hf, hpath⟩ := callee_derives hfunc
      obtain ⟨ds, hds, hts⟩ := arguments_derives hargs
      obtain ⟨d, hd, htokens⟩ := call_derives hcall hds
      exact ⟨.call library f func hf d, hd,
        by simp [hpath, hkind, hts, htokens]⟩
    · exact variable_derives h

theorem arguments_derives : ∀ {fuel : Nat} {ts rest : List Token} {args : List Expr} {stop : Nat},
    arguments eof fuel ts = .ok ((args, stop), rest) →
    ∃ ds : List (Derivation (.chain .disjunction)), args.map Expr.bare = ds.map Derivation.tree ∧
      kinds ts = argumentTokens ds ++ kinds rest
  | fuel + 1, [], rest, args, stop, h => by
    obtain ⟨a, more, hargs, hts⟩ := argumentsRest_derives h
    exact ⟨a :: more, by simpa using hargs, hts⟩
  | fuel + 1, t :: ts, rest, args, stop, h => by
    rw [arguments] at h
    split_ifs at h with hkind
    · cases h
      exact ⟨[], rfl, by simp [argumentTokens, hkind]⟩
    · obtain ⟨a, more, hargs, hts⟩ := argumentsRest_derives h
      exact ⟨a :: more, by simpa using hargs, hts⟩

theorem argumentsRest_derives : ∀ {fuel : Nat} {args : List Expr} {ts rest : List Token}
    {args' : List Expr} {stop : Nat}, argumentsRest eof fuel args ts = .ok ((args', stop), rest) →
    ∃ (a : Derivation (.chain .disjunction)) (more : List (Derivation (.chain .disjunction))),
      args'.map Expr.bare = args.map Expr.bare ++ (a :: more).map Derivation.tree ∧
      kinds ts = argumentTokens (a :: more) ++ kinds rest
  | fuel + 1, args, ts, rest, args', stop, h => by
    rw [argumentsRest] at h
    obtain ⟨⟨a, mid⟩, ha, hmid⟩ := bind_eq_ok h
    obtain ⟨d, hd, hts⟩ := chain_derives ha
    rcases mid with _ | ⟨t, mid⟩
    · cases hmid
    simp only at hmid
    split_ifs at hmid with hkind
    · obtain ⟨b, more, hargs, hmid'⟩ := argumentsRest_derives hmid
      exact ⟨d, b :: more, by simp [hargs, hd], by simp [argumentTokens, hts, hkind, hmid']⟩
    · obtain ⟨⟨stop', after⟩, hclosing, hafter⟩ := bind_eq_ok hmid
      cases hafter
      exact ⟨d, [], by simp [hd], by simp [argumentTokens, hts, closing_derives hclosing]⟩

end

end Derives

section Reads

/-- The function of a rule takes the tokens before the rest and gives a meaning. -/
def Reads (eof fuel : Nat) : (r : Rule) → r.Meaning → List Token → List Token → Prop
  | .chain level, m, ts, rest => ∃ e, chain eof fuel level ts = .ok (e, rest) ∧ e.bare = m
  | .more level, m, ts, rest =>
    ∀ a : Expr, ∃ e, chainRest eof fuel level a ts = .ok (e, rest) ∧ e.bare = m a.bare
  | .operand level, m, ts, rest => ∃ e, operand eof fuel level ts = .ok (e, rest) ∧ e.bare = m
  | .negation, m, ts, rest => ∃ e, negation eof fuel ts = .ok (e, rest) ∧ e.bare = m
  | .comparison, m, ts, rest => ∃ e, comparison eof fuel ts = .ok (e, rest) ∧ e.bare = m
  | .signed, m, ts, rest => ∃ e, signed eof fuel ts = .ok (e, rest) ∧ e.bare = m
  | .power, m, ts, rest => ∃ e, power eof fuel ts = .ok (e, rest) ∧ e.bare = m
  | .atom, m, ts, rest => ∃ e, atom eof fuel ts = .ok (e, rest) ∧ e.bare = m
  | .arguments func, m, ts, rest => ∃ args stop, arguments eof fuel ts = .ok ((args, stop), rest) ∧
      ∀ start, ∃ e, call func args ⟨start, stop⟩ = .ok e ∧ e.bare = m

/-- The number of functions that are entered before a token is taken. -/
def Rule.steps : Rule → Nat
  | atom => 2
  | power => 3
  | signed => 4
  | operand .product => 5
  | chain .product => 6
  | operand .sum => 7
  | chain .sum => 8
  | comparison => 9
  | negation => 10
  | operand .conjunction => 11
  | chain .conjunction => 12
  | operand .disjunction => 13
  | chain .disjunction => 14
  | arguments _ => 16
  | more _ => 17

variable {eof : Nat}

theorem argumentsRest_last {fuel : Nat} {args : List Expr} {ts rest : List Token} {a : Expr}
    {t : Token} (h : chain eof fuel .disjunction ts = .ok (a, t :: rest)) (ht : t.kind = .rparen) :
    argumentsRest eof (fuel + 1) args ts = .ok ((args ++ [a], t.span.stop), rest) := by
  have hcomma : t.kind ≠ .comma := by simp [ht]
  rw [argumentsRest, h]
  simp only [bind, Except.bind, if_neg hcomma, closing, if_pos ht]
  rfl

theorem argumentsRest_comma {fuel : Nat} {args : List Expr} {ts rest : List Token} {a : Expr}
    {t : Token} (h : chain eof fuel .disjunction ts = .ok (a, t :: rest)) (ht : t.kind = .comma) :
    argumentsRest eof (fuel + 1) args ts = argumentsRest eof fuel (args ++ [a]) rest := by
  rw [argumentsRest, h]
  simp [bind, Except.bind, ht]

theorem Rule.Stops.comparison?_eq_none {t : Token} {rest : List Token}
    (h : Rule.comparison.Stops (kinds (t :: rest))) : comparison? t.kind = none := by
  rw [Option.eq_none_iff_forall_ne_some]
  exact fun op hop => h.absurd (strength_of_comparison? hop) le_rfl

theorem Sign.bare_apply (s : Sign) (e : Expr) : (s.apply e).bare = s.apply e.bare := by
  cases s
  · exact Expr.bare_negated e
  · rfl
  · rfl

/-- A path ends where no point comes after it. -/
theorem pathRest_ends {path : List String} {stop : Nat} {rest : List Token}
    (h : TokenKind.dot ∉ (kinds rest).head?) :
    pathRest eof path stop rest = .ok ((path, stop), rest) := by
  match rest, h with
  | [], _ => rfl
  | [⟨k, _, _⟩], h | ⟨k, _, _⟩ :: _ :: _, h =>
    cases k with
    | dot => exact absurd rfl h
    | _ => rfl

theorem pathRest_dot {path : List String} {stop : Nat} {t t' : Token} {s : String}
    {rest : List Token} (ht : t.kind = .dot) (ht' : t'.kind = .ident s) :
    pathRest eof path stop (t :: t' :: rest) = pathRest eof (path ++ [s]) t'.span.stop rest := by
  obtain ⟨k, _, _⟩ := t
  obtain ⟨k', _, _⟩ := t'
  cases ht
  cases ht'
  rfl

theorem Rule.Stops.dot_notMem {rest : List TokenKind} (h : Rule.atom.Stops rest) :
    TokenKind.dot ∉ rest.head? := by
  rcases rest with _ | ⟨k, rest⟩
  · simp
  · rintro ⟨⟩
    exact h.absurd rfl le_rfl

theorem named_stops {fuel : Nat} {path : List String} {span : Span} {rest : List Token} {e : Expr}
    (h : Rule.atom.Stops (kinds rest)) (he : variable_ span path = .ok e) :
    named eof (fuel + 1) path span rest = .ok (e, rest) := by
  rcases rest with _ | ⟨t, rest⟩
  · rw [named, he]
    rfl
  · have hkind : t.kind ≠ .lparen := fun hkind => h.absurd (by rw [hkind]; rfl) le_rfl
    rw [named, if_neg hkind, he]
    rfl

namespace Derivation

/-- The function of the rule reads the tokens of the derivation, and no more, with fuel for 16 functions
at every token. -/
def IsRead (eof : Nat) {r : Rule} (d : Derivation r) : Prop :=
  ∀ (us rest : List Token) (fuel : Nat), kinds us = d.tokens → r.Stops (kinds rest) →
    16 * us.length + r.steps ≤ fuel + 16 → Reads eof fuel r d.tree (us ++ rest) rest

theorem exists_cons {r : Rule} (d : Derivation r) (hr : ∀ level, r ≠ .more level) {us : List Token}
    (h : kinds us = d.tokens) : ∃ t ts, us = t :: ts ∧ r.mayStart t.kind = true := by
  obtain ⟨k, ks, htokens, hk⟩ := d.exists_first hr
  obtain ⟨t, ts, rfl, rfl, -⟩ := List.map_eq_cons_iff.1 (h.trans htokens)
  exact ⟨t, ts, rfl, hk⟩

theorem exists_fuel {r : Rule} (d : Derivation r) (hr : ∀ level, r ≠ .more level) {us : List Token}
    (hus : kinds us = d.tokens) {fuel : Nat} (h : 16 * us.length + r.steps ≤ fuel + 16) :
    ∃ n, fuel = n + 1 ∧ 16 * us.length + r.steps ≤ n + 17 := by
  obtain ⟨t, ts, rfl, -⟩ := d.exists_cons hr hus
  have hsteps : 2 ≤ r.steps := by
    rcases r with level | level | level | _ | _ | _ | _ | _ | _
    all_goals try cases level
    all_goals simp [Rule.steps]
  simp only [List.length_cons] at h ⊢
  exact ⟨fuel - 1, by omega, by omega⟩

theorem IsRead.chain {level : Level} {first : Derivation (.operand level)}
    {more : Derivation (.more level)} (hfirst : first.IsRead eof) (hmore : more.IsRead eof) :
    (Derivation.chain first more).IsRead eof := by
  intro us rest fuel hus hs hfuel
  obtain ⟨us, vs, rfl, hu, hv⟩ := List.map_eq_append_iff.1 hus
  obtain ⟨t, ts, rfl, -⟩ := first.exists_cons (by simp) hu
  have hsteps : (Rule.chain level).steps = (Rule.operand level).steps + 1 := by cases level <;> rfl
  have hmost : (Rule.operand level).steps ≤ 13 := by cases level <;> decide
  have hleast : 5 ≤ (Rule.operand level).steps := by cases level <;> decide
  have hlast : (Rule.more level).steps = 17 := rfl
  simp only [List.length_append, List.length_cons] at hfuel
  obtain ⟨fuel, rfl⟩ : ∃ n, fuel = n + 1 := ⟨fuel - 1, by omega⟩
  have hstops : (Rule.operand level).Stops (kinds (vs ++ rest)) := by
    rw [kinds, List.map_append, hv]
    exact more.stops_more hs
  obtain ⟨a, ha, hbare⟩ := hfirst (t :: ts) (vs ++ rest) fuel hu hstops
    (by simp only [List.length_cons]; omega)
  obtain ⟨e, he, hresult⟩ := hmore vs rest fuel hv hs (by omega) a
  refine ⟨e, ?_, by rw [hresult, hbare]; rfl⟩
  rw [List.append_assoc, Grammar.chain, ha]
  exact he

theorem isRead_done (level : Level) : (@Derivation.done level).IsRead eof := by
  intro us rest fuel hus hs hfuel a
  obtain rfl := List.map_eq_nil_iff.1 hus
  obtain ⟨fuel, rfl⟩ : ∃ n, fuel = n + 1 := ⟨fuel - 1, by simp [Rule.steps] at hfuel; omega⟩
  refine ⟨a, ?_, rfl⟩
  rcases rest with _ | ⟨t, rest⟩
  · rfl
  · have hop : level.op? t.kind = none := by
      rw [Option.eq_none_iff_forall_ne_some]
      exact fun op hop => hs.absurd (strength_of_op? hop) le_rfl
    rw [List.nil_append, chainRest, hop]

theorem IsRead.next {level : Level} {k : TokenKind} {op : Op2} (hk : level.op? k = some op)
    {a : Derivation (.operand level)} {more : Derivation (.more level)} (ha : a.IsRead eof)
    (hmore : more.IsRead eof) : (Derivation.next k op hk a more).IsRead eof := by
  intro us rest fuel hus hs hfuel before
  obtain ⟨t, ts, rfl, rfl, hts⟩ := List.map_eq_cons_iff.1 hus
  obtain ⟨us, vs, rfl, hu, hv⟩ := List.map_eq_append_iff.1 hts
  have hmost : (Rule.operand level).steps ≤ 13 := by cases level <;> decide
  have hlast : (Rule.more level).steps = 17 := rfl
  simp only [List.length_append, List.length_cons] at hfuel
  obtain ⟨fuel, rfl⟩ : ∃ n, fuel = n + 1 := ⟨fuel - 1, by omega⟩
  have hstops : (Rule.operand level).Stops (kinds (vs ++ rest)) := by
    rw [kinds, List.map_append, hv]
    exact more.stops_more hs
  obtain ⟨b, hb, hbare⟩ := ha us (vs ++ rest) fuel hu hstops (by omega)
  obtain ⟨e, he, hresult⟩ := hmore vs rest fuel hv hs (by omega) (.binary op before b none)
  refine ⟨e, ?_, by rw [hresult, Expr.bare, hbare]; rfl⟩
  rw [List.cons_append, List.append_assoc, chainRest, hk]
  simp only [hb]
  exact he

theorem IsRead.not {a : Derivation .negation} (ha : a.IsRead eof) : a.not.IsRead eof := by
  intro us rest fuel hus hs hfuel
  obtain ⟨fuel, rfl, hfuel⟩ := a.not.exists_fuel (by simp) hus hfuel
  obtain ⟨t, us, rfl, ht, hu⟩ := List.map_eq_cons_iff.1 hus
  obtain ⟨e, he, hbare⟩ := ha us rest fuel hu hs (by simp only [List.length_cons] at hfuel; omega)
  refine ⟨.unary .not e none, ?_, by rw [Expr.bare, hbare]; rfl⟩
  rw [List.cons_append, Grammar.negation, if_pos ht, he]
  rfl

theorem IsRead.comparison {a : Derivation .comparison} (ha : a.IsRead eof) :
    a.comparison.IsRead eof := by
  intro us rest fuel hus hs hfuel
  obtain ⟨fuel, rfl, hfuel⟩ := a.comparison.exists_fuel (by simp) hus hfuel
  obtain ⟨t, us, rfl, ht⟩ := a.exists_cons (by simp) hus
  have hkind : t.kind ≠ .not := by
    intro hkind
    rw [hkind] at ht
    cases ht
  obtain ⟨e, he, hbare⟩ := ha (t :: us) rest fuel hus hs (Nat.le_of_succ_le_succ hfuel)
  exact ⟨e, by rw [List.cons_append, Grammar.negation, if_neg hkind]; exact he, hbare⟩

theorem IsRead.alone {a : Derivation (.chain .sum)} (ha : a.IsRead eof) : a.alone.IsRead eof := by
  intro us rest fuel hus hs hfuel
  obtain ⟨fuel, rfl, hfuel⟩ := a.alone.exists_fuel (by simp) hus hfuel
  obtain ⟨e, he, hbare⟩ := ha us rest fuel hus (hs.mono (by decide))
    (Nat.le_of_succ_le_succ hfuel)
  refine ⟨e, ?_, hbare⟩
  rw [Grammar.comparison, he]
  rcases rest with _ | ⟨t, rest⟩
  · rfl
  · have hop : comparison? t.kind = none := hs.comparison?_eq_none
    simp only [bind, Except.bind, hop]
    rfl

theorem IsRead.compared {a b : Derivation (.chain .sum)} {k : TokenKind} {op : Op2}
    (hk : comparison? k = some op) (ha : a.IsRead eof) (hb : b.IsRead eof) :
    (a.compared k op hk b).IsRead eof := by
  intro us rest fuel hus hs hfuel
  obtain ⟨fuel, rfl, hfuel⟩ := (a.compared k op hk b).exists_fuel (by simp) hus hfuel
  obtain ⟨us, ts, rfl, hu, hts⟩ := List.map_eq_append_iff.1 hus
  obtain ⟨t, vs, rfl, rfl, hv⟩ := List.map_eq_cons_iff.1 hts
  simp only [List.length_append, List.length_cons, Rule.steps] at hfuel
  obtain ⟨e, he, hbare⟩ := ha us (t :: (vs ++ rest)) fuel hu (stops_comparison hk _)
    (by simp only [Rule.steps]; omega)
  obtain ⟨e', he', hbare'⟩ := hb vs rest fuel hv (hs.mono (by decide))
    (by simp only [Rule.steps]; omega)
  refine ⟨.binary op e e' none, ?_, by rw [Expr.bare, hbare, hbare']; rfl⟩
  rw [List.append_assoc, List.cons_append, Grammar.comparison, he]
  rcases rest with _ | ⟨t', rest⟩
  · simp only [bind, Except.bind, hk, he']
    rfl
  · have hop : comparison? t'.kind = none := hs.comparison?_eq_none
    simp only [bind, Except.bind, hk, he', hop]
    rfl

theorem IsRead.sign {s : Sign} {a : Derivation .signed} (ha : a.IsRead eof) :
    (a.sign s).IsRead eof := by
  intro us rest fuel hus hs hfuel
  obtain ⟨fuel, rfl, hfuel⟩ := (a.sign s).exists_fuel (by simp) hus hfuel
  obtain ⟨t, us, rfl, ht, hu⟩ := List.map_eq_cons_iff.1 hus
  obtain ⟨e, he, hbare⟩ := ha us rest fuel hu hs (by simp only [List.length_cons] at hfuel; omega)
  refine ⟨s.apply e, ?_, by rw [Sign.bare_apply, hbare]; rfl⟩
  rw [List.cons_append, Grammar.signed, ht, he]
  cases s <;> rfl

theorem IsRead.power {a : Derivation .power} (ha : a.IsRead eof) : a.power.IsRead eof := by
  intro us rest fuel hus hs hfuel
  obtain ⟨fuel, rfl, hfuel⟩ := a.power.exists_fuel (by simp) hus hfuel
  obtain ⟨t, us, rfl, ht⟩ := a.exists_cons (by simp) hus
  obtain ⟨e, he, hbare⟩ := ha (t :: us) rest fuel hus hs (Nat.le_of_succ_le_succ hfuel)
  refine ⟨e, ?_, hbare⟩
  rw [List.cons_append, Grammar.signed]
  split <;> simp_all [Rule.mayStart]

theorem IsRead.base {a : Derivation .atom} (ha : a.IsRead eof) : a.base.IsRead eof := by
  intro us rest fuel hus hs hfuel
  obtain ⟨fuel, rfl, hfuel⟩ := a.base.exists_fuel (by simp) hus hfuel
  obtain ⟨e, he, hbare⟩ := ha us rest fuel hus (hs.mono (by decide))
    (Nat.le_of_succ_le_succ hfuel)
  refine ⟨e, ?_, hbare⟩
  rw [Grammar.power, he]
  rcases rest with _ | ⟨t, rest⟩
  · rfl
  · have hkind : t.kind ≠ .starStar := fun hkind => hs.absurd (by rw [hkind]; rfl) le_rfl
    simp only [bind, Except.bind, if_neg hkind]
    rfl

theorem IsRead.raised {a : Derivation .atom} {b : Derivation .signed} (ha : a.IsRead eof)
    (hb : b.IsRead eof) : (a.raised b).IsRead eof := by
  intro us rest fuel hus hs hfuel
  obtain ⟨fuel, rfl, hfuel⟩ := (a.raised b).exists_fuel (by simp) hus hfuel
  obtain ⟨us, ts, rfl, hu, hts⟩ := List.map_eq_append_iff.1 hus
  obtain ⟨t, vs, rfl, ht, hv⟩ := List.map_eq_cons_iff.1 hts
  simp only [List.length_append, List.length_cons, Rule.steps] at hfuel
  obtain ⟨e, he, hbare⟩ := ha us (t :: (vs ++ rest)) fuel hu
    (by rw [kinds, List.map_cons, ht]; exact stops_starStar _) (by simp only [Rule.steps]; omega)
  obtain ⟨e', he', hbare'⟩ := hb vs rest fuel hv hs (by simp only [Rule.steps]; omega)
  refine ⟨.binary .pow e e' none, ?_, by rw [Expr.bare, hbare, hbare']; rfl⟩
  rw [List.append_assoc, List.cons_append, Grammar.power, he]
  simp only [bind, Except.bind, if_pos ht, he']
  rfl

theorem IsRead.paren {a : Derivation (.chain .disjunction)} (ha : a.IsRead eof) :
    a.paren.IsRead eof := by
  intro us rest fuel hus hs hfuel
  obtain ⟨fuel, rfl, hfuel⟩ := a.paren.exists_fuel (by simp) hus hfuel
  obtain ⟨t, ts, rfl, ht, hts⟩ := List.map_eq_cons_iff.1 hus
  obtain ⟨us, vs, rfl, hu, hvs⟩ := List.map_eq_append_iff.1 hts
  obtain ⟨t', rfl, ht'⟩ := List.map_eq_singleton_iff.1 hvs
  simp only [List.length_append, List.length_cons, List.length_nil, Rule.steps] at hfuel
  obtain ⟨e, he, hbare⟩ := ha us (t' :: rest) fuel hu
    (by rw [kinds, List.map_cons, ht']; exact .of_none _ rfl) (by simp only [Rule.steps]; omega)
  refine ⟨e, ?_, hbare⟩
  rw [List.cons_append, List.append_assoc, List.cons_append, List.nil_append, Grammar.atom, ht]
  simp only [bind, Except.bind, he, closing, if_pos ht']
  rfl

theorem isRead_number (x : Float) : (number x).IsRead eof := by
  intro us rest fuel hus hs hfuel
  obtain ⟨fuel, rfl, -⟩ := (number x).exists_fuel (by simp) hus hfuel
  obtain ⟨t, rfl, ht⟩ := List.map_eq_singleton_iff.1 hus
  exact ⟨.number x, by rw [List.cons_append, Grammar.atom, ht]; rfl, rfl⟩

theorem isRead_bool (b : Bool) : (bool b).IsRead eof := by
  intro us rest fuel hus hs hfuel
  obtain ⟨fuel, rfl, -⟩ := (bool b).exists_fuel (by simp) hus hfuel
  obtain ⟨t, rfl, ht⟩ := List.map_eq_singleton_iff.1 hus
  exact ⟨.bool b, by rw [List.cons_append, Grammar.atom, ht]; rfl, rfl⟩

theorem isRead_name (n : String) : (name n).IsRead eof := by
  intro us rest fuel hus hs hfuel
  simp only [Rule.steps] at hfuel
  obtain ⟨t, rfl, ht⟩ := List.map_eq_singleton_iff.1 hus
  obtain ⟨fuel, rfl⟩ : ∃ n, fuel = n + 2 := ⟨fuel - 2, by simp at hfuel; omega⟩
  refine ⟨.name none n ⟨t.span.start, t.span.stop⟩, ?_, rfl⟩
  rw [List.cons_append, Grammar.atom, ht]
  simp only [List.nil_append, pathRest_ends hs.dot_notMem, bind, Except.bind]
  exact named_stops hs rfl

theorem isRead_dotted (table n : String) : (dotted table n).IsRead eof := by
  intro us rest fuel hus hs hfuel
  simp only [Rule.steps] at hfuel
  obtain ⟨t, ts, rfl, ht, hts⟩ := List.map_eq_cons_iff.1 hus
  obtain ⟨t', ts, rfl, ht', hts⟩ := List.map_eq_cons_iff.1 hts
  obtain ⟨t'', rfl, ht''⟩ := List.map_eq_singleton_iff.1 hts
  obtain ⟨fuel, rfl⟩ : ∃ n, fuel = n + 2 := ⟨fuel - 2, by simp at hfuel; omega⟩
  refine ⟨.name (some table) n ⟨t.span.start, t''.span.stop⟩, ?_, rfl⟩
  simp only [List.cons_append, List.nil_append]
  rw [Grammar.atom, ht]
  simp only [pathRest_dot ht' ht'', pathRest_ends hs.dot_notMem, bind, Except.bind]
  exact named_stops hs rfl

/-- The names before the parenthesis of a call. -/
def callPath (library : Option Library) (f : String) : List String :=
  (library.map Library.name).toList ++ [f]

theorem callee_callPath {library : Option Library} {f : String} {func : Func}
    (hf : Func.ofName? f = some func) (start : Nat) :
    callee start (callPath library f) = .ok func := by
  rcases library with _ | _ | _ <;> simp [callPath, Library.name, callee, hf]

theorem atom_callPath (eof fuel : Nat) {library : Option Library} {f : String} {us : List Token}
    {t : Token} (hus : kinds us = libraryTokens library ++ [.ident f]) (ht : t.kind = .lparen)
    (ts : List Token) : ∃ span, Grammar.atom eof (fuel + 1) (us ++ t :: ts) =
      named eof fuel (callPath library f) span (t :: ts) := by
  have hends : TokenKind.dot ∉ (kinds (t :: ts)).head? := by simp [ht]
  rcases library with _ | l
  · obtain ⟨t₁, rfl, ht₁⟩ := List.map_eq_singleton_iff.1 hus
    refine ⟨⟨t₁.span.start, t₁.span.stop⟩, ?_⟩
    rw [List.cons_append, Grammar.atom, ht₁]
    simp only [List.nil_append, pathRest_ends hends, bind, Except.bind]
    rfl
  · obtain ⟨t₁, us, rfl, ht₁, hus⟩ := List.map_eq_cons_iff.1 hus
    obtain ⟨t₂, us, rfl, ht₂, hus⟩ := List.map_eq_cons_iff.1 hus
    obtain ⟨t₃, rfl, ht₃⟩ := List.map_eq_singleton_iff.1 hus
    refine ⟨⟨t₁.span.start, t₃.span.stop⟩, ?_⟩
    simp only [List.cons_append, List.nil_append]
    rw [Grammar.atom, ht₁]
    simp only [pathRest_dot ht₂ ht₃, pathRest_ends hends, bind, Except.bind]
    rfl

theorem named_call {fuel stop : Nat} {path : List String} {span : Span} {t : Token}
    {ts rest : List Token} {func : Func} {args : List Expr} {e : Expr} (ht : t.kind = .lparen)
    (hfunc : callee span.start path = .ok func)
    (hargs : Grammar.arguments eof fuel ts = .ok ((args, stop), rest))
    (hcall : Grammar.call func args ⟨span.start, stop⟩ = .ok e) :
    named eof (fuel + 1) path span (t :: ts) = .ok (e, rest) := by
  rw [named, if_pos ht, hfunc]
  simp only [bind, Except.bind, hargs, hcall]
  rfl

theorem IsRead.call {library : Option Library} {f : String} {func : Func}
    (hf : Func.ofName? f = some func) {args : Derivation (.arguments func)}
    (hargs : args.IsRead eof) : (Derivation.call library f func hf args).IsRead eof := by
  intro us rest fuel hus hs hfuel
  have htokens : kinds us = (libraryTokens library ++ [.ident f]) ++ .lparen :: args.tokens := by
    rw [hus, List.append_assoc]
    rfl
  obtain ⟨us, ts, rfl, hu, hts⟩ := List.map_eq_append_iff.1 htokens
  obtain ⟨t, vs, rfl, ht, hv⟩ := List.map_eq_cons_iff.1 hts
  simp only [List.length_append, List.length_cons, Rule.steps] at hfuel
  obtain ⟨fuel, rfl⟩ : ∃ n, fuel = n + 2 := ⟨fuel - 2, by omega⟩
  obtain ⟨span, hatom⟩ := atom_callPath eof (fuel + 1) hu ht (vs ++ rest)
  obtain ⟨args', stop, hargs', hcall⟩ := hargs vs rest fuel hv (hs.mono (Nat.le_succ 6))
    (by simp only [Rule.steps]; omega)
  obtain ⟨e, he, hbare⟩ := hcall span.start
  refine ⟨e, ?_, hbare⟩
  rw [List.append_assoc, List.cons_append, hatom]
  exact named_call ht (callee_callPath hf _) hargs' he

theorem arguments_first (a : Derivation (.chain .disjunction)) {us : List Token}
    (hus : kinds us = a.tokens) (fuel : Nat) (ts : List Token) :
    Grammar.arguments eof (fuel + 1) (us ++ ts) = argumentsRest eof fuel [] (us ++ ts) := by
  obtain ⟨t, us, rfl, ht⟩ := a.exists_cons (by simp) hus
  have hkind : t.kind ≠ .rparen := by
    intro hkind
    rw [hkind] at ht
    cases ht
  rw [List.cons_append, Grammar.arguments, if_neg hkind]

theorem IsRead.one {op : Op1} {a : Derivation (.chain .disjunction)} (ha : a.IsRead eof) :
    (Derivation.one op a).IsRead eof := by
  intro us rest fuel hus hs hfuel
  obtain ⟨us, ts, rfl, hu, hts⟩ := List.map_eq_append_iff.1 hus
  obtain ⟨t, rfl, ht⟩ := List.map_eq_singleton_iff.1 hts
  simp only [List.length_append, List.length_cons, List.length_nil, Rule.steps] at hfuel
  obtain ⟨fuel, rfl⟩ : ∃ n, fuel = n + 2 := ⟨fuel - 2, by omega⟩
  obtain ⟨e, he, hbare⟩ := ha us (t :: rest) fuel hu (by simp [Rule.Stops, ht, strength])
    (by simp only [Rule.steps]; omega)
  refine ⟨[e], t.span.stop, ?_, fun start => ⟨_, rfl, by rw [Expr.bare, hbare]; rfl⟩⟩
  rw [List.append_assoc, List.cons_append, List.nil_append, arguments_first a hu]
  exact argumentsRest_last he ht

theorem IsRead.two {op : Op2} {a b : Derivation (.chain .disjunction)} (ha : a.IsRead eof)
    (hb : b.IsRead eof) : (Derivation.two op a b).IsRead eof := by
  intro us rest fuel hus hs hfuel
  obtain ⟨us, ts, rfl, hu, hts⟩ := List.map_eq_append_iff.1 hus
  obtain ⟨t, ts, rfl, ht, hts⟩ := List.map_eq_cons_iff.1 hts
  obtain ⟨vs, ts, rfl, hv, hts⟩ := List.map_eq_append_iff.1 hts
  obtain ⟨t', rfl, ht'⟩ := List.map_eq_singleton_iff.1 hts
  simp only [List.length_append, List.length_cons, List.length_nil, Rule.steps] at hfuel
  obtain ⟨fuel, rfl⟩ : ∃ n, fuel = n + 3 := ⟨fuel - 3, by omega⟩
  obtain ⟨e, he, hbare⟩ := ha us (t :: (vs ++ t' :: rest)) (fuel + 1) hu
    (by simp [Rule.Stops, ht, strength]) (by simp only [Rule.steps]; omega)
  obtain ⟨e', he', hbare'⟩ := hb vs (t' :: rest) fuel hv (by simp [Rule.Stops, ht', strength])
    (by simp only [Rule.steps]; omega)
  refine ⟨[e, e'], t'.span.stop, ?_,
    fun start => ⟨_, rfl, by rw [Expr.bare, hbare, hbare']; rfl⟩⟩
  simp only [List.append_assoc, List.cons_append, List.nil_append]
  rw [arguments_first a hu, argumentsRest_comma he ht]
  exact argumentsRest_last he' ht'

theorem IsRead.three {op : Op3} {a b c : Derivation (.chain .disjunction)} (ha : a.IsRead eof)
    (hb : b.IsRead eof) (hc : c.IsRead eof) : (Derivation.three op a b c).IsRead eof := by
  intro us rest fuel hus hs hfuel
  obtain ⟨us, ts, rfl, hu, hts⟩ := List.map_eq_append_iff.1 hus
  obtain ⟨t, ts, rfl, ht, hts⟩ := List.map_eq_cons_iff.1 hts
  obtain ⟨vs, ts, rfl, hv, hts⟩ := List.map_eq_append_iff.1 hts
  obtain ⟨t', ts, rfl, ht', hts⟩ := List.map_eq_cons_iff.1 hts
  obtain ⟨ws, ts, rfl, hw, hts⟩ := List.map_eq_append_iff.1 hts
  obtain ⟨t'', rfl, ht''⟩ := List.map_eq_singleton_iff.1 hts
  simp only [List.length_append, List.length_cons, List.length_nil, Rule.steps] at hfuel
  obtain ⟨fuel, rfl⟩ : ∃ n, fuel = n + 4 := ⟨fuel - 4, by omega⟩
  obtain ⟨e, he, hbare⟩ := ha us (t :: (vs ++ t' :: (ws ++ t'' :: rest))) (fuel + 2) hu
    (by simp [Rule.Stops, ht, strength]) (by simp only [Rule.steps]; omega)
  obtain ⟨e', he', hbare'⟩ := hb vs (t' :: (ws ++ t'' :: rest)) (fuel + 1) hv
    (by simp [Rule.Stops, ht', strength]) (by simp only [Rule.steps]; omega)
  obtain ⟨e'', he'', hbare''⟩ := hc ws (t'' :: rest) fuel hw
    (by simp [Rule.Stops, ht'', strength]) (by simp only [Rule.steps]; omega)
  refine ⟨[e, e', e''], t''.span.stop, ?_,
    fun start => ⟨_, rfl, by rw [Expr.bare, hbare, hbare', hbare'']; rfl⟩⟩
  simp only [List.append_assoc, List.cons_append, List.nil_append]
  rw [arguments_first a hu, argumentsRest_comma he ht, argumentsRest_comma he' ht']
  exact argumentsRest_last he'' ht''

/-- Every derivation is read back. -/
theorem isRead (eof : Nat) {r : Rule} (d : Derivation r) : d.IsRead eof := by
  induction d with
  | chain _ _ hfirst hmore => exact hfirst.chain hmore
  | done => exact isRead_done _
  | next _ _ hk _ _ ha hmore => exact ha.next hk hmore
  | conjunction a ha | negation a ha | product a ha | signed a ha =>
    intro us rest fuel hus hs hfuel
    obtain ⟨fuel, rfl, hfuel⟩ := a.exists_fuel (by simp) hus (Nat.le_of_succ_le hfuel)
    exact ha us rest fuel hus hs (by simp only [Rule.steps] at hfuel ⊢; omega)
  | not _ ha => exact ha.not
  | comparison _ ha => exact ha.comparison
  | alone _ ha => exact ha.alone
  | compared _ _ _ hk _ ha hb => exact ha.compared hk hb
  | sign _ _ ha => exact ha.sign
  | power _ ha => exact ha.power
  | base _ ha => exact ha.base
  | raised _ _ ha hb => exact ha.raised hb
  | number x => exact isRead_number x
  | bool b => exact isRead_bool b
  | paren _ ha => exact ha.paren
  | name n => exact isRead_name n
  | dotted table n => exact isRead_dotted table n
  | call _ _ _ hf _ hargs => exact hargs.call hf
  | one _ _ ha => exact ha.one
  | two _ _ _ ha hb => exact ha.two hb
  | three _ _ _ _ ha hb hc => exact ha.three hb hc

end Derivation

end Reads

/-- A list of tokens is parsed exactly if it has a derivation, with the tree of the derivation, and no
list of tokens has two derivations. -/
theorem parse_iff_derived (eof : Nat) (ts : List Token) :
    (∀ t : Expr, (∃ e, parse eof ts = .ok e ∧ e.bare = t) ↔
      ∃ d : Derivation (.chain .disjunction), d.tokens = ts.map Token.kind ∧ d.tree = t) ∧
    ∀ d d' : Derivation (.chain .disjunction), d.tokens = d'.tokens → d = d' := by
  refine ⟨fun t => ⟨?_, ?_⟩, fun d d' => Derivation.unique⟩
  · rintro ⟨e, h, rfl⟩
    rw [parse] at h
    split_ifs at h
    · cases h
    · obtain ⟨⟨e', rest⟩, he, h⟩ := bind_eq_ok h
      rcases rest with _ | ⟨t, rest⟩
      · cases h
        obtain ⟨d, hd, hts⟩ := chain_derives he
        exact ⟨d, by simpa using hts.symm, hd⟩
      · cases h
  · rintro ⟨d, htokens, rfl⟩
    obtain ⟨t, us, rfl, -⟩ := d.exists_cons (by simp) htokens.symm
    obtain ⟨e, he, hbare⟩ := d.isRead eof (t :: us) [] (16 * ((t :: us).length + 1)) htokens.symm
      (.nil _) (by simp only [Rule.steps]; omega)
    rw [List.append_nil] at he
    refine ⟨e, ?_, hbare⟩
    rw [parse, if_neg (by simp)]
    simp only [bind, Except.bind, he]
    rfl

end Grammar

end LinkedTables
