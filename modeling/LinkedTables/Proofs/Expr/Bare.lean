import LinkedTables.Expr.Grammar
import LinkedTables.Proofs.Expr.Normal

/-!
# The grammar does not look at places

The places of tokens end up in a tree and in faults, but no rule of the grammar depends on them: on
tokens of the same kinds each rule gives trees that are equal without their places, and tokens of the
same kinds to go on with, or it fails on both for one cause (`chain_agrees` and the others). So texts
with one normal form have one tree, apart from places, or are refused for one cause (`read_agrees`).
-/

namespace LinkedTables

/-- The tree with all places of its names and calls set to one. -/
def Expr.bare : Expr → Expr
  | .number x => .number x
  | .bool b => .bool b
  | .name table n _ => .name table n ⟨0, 0⟩
  | .unary op a call => .unary op a.bare (call.map fun _ => ⟨0, 0⟩)
  | .binary op a b call => .binary op a.bare b.bare (call.map fun _ => ⟨0, 0⟩)
  | .ternary op a b c call => .ternary op a.bare b.bare c.bare (call.map fun _ => ⟨0, 0⟩)

theorem Expr.bare_negated (e : Expr) : e.negated.bare = e.bare.negated := by
  cases e <;> rfl

namespace Grammar

/-- Tokens of the same kinds. -/
abbrev Alike : List Token → List Token → Prop := List.Forall₂ fun t t' => t.kind = t'.kind

/-- Results that are related, or faults of one cause. -/
inductive Agree {α : Type} (R : α → α → Prop) : Except ParseFault α → Except ParseFault α → Prop where
  | ok {a a' : α} (h : R a a') : Agree R (.ok a) (.ok a')
  | error {f f' : ParseFault} (h : f.cause = f'.cause) : Agree R (.error f) (.error f')

/-- Trees that are equal without their places, and tokens of the same kinds after them. -/
def SameTree (r r' : Expr × List Token) : Prop := r.1.bare = r'.1.bare ∧ Alike r.2 r'.2

/-- The same for arguments and the place where they end. -/
def SameArguments (r r' : (List Expr × Nat) × List Token) : Prop :=
  r.1.1.map Expr.bare = r'.1.1.map Expr.bare ∧ Alike r.2 r'.2

section Agreement

variable {α β : Type} {R : α → α → Prop} {S : β → β → Prop} {x x' : Except ParseFault α}
  {f f' : α → Except ParseFault β}

theorem Agree.bind (h : Agree R x x') (hf : ∀ a a', R a a' → Agree S (f a) (f' a')) :
    Agree S (x >>= f) (x' >>= f') := by
  rcases h with h | h
  · exact hf _ _ h
  · exact .error h

theorem Agree.imp {R' : α → α → Prop} (h : Agree R x x') (himp : ∀ a a', R a a' → R' a a') :
    Agree R' x x' := by
  rcases h with h | h
  · exact .ok (himp _ _ h)
  · exact .error h

theorem Agree.rel {a a' : α} (h : Agree R (.ok a) (.ok a')) : R a a' := by
  cases h
  assumption

end Agreement

section Parts

theorem variable_agrees (span span' : Span) (path : List String) {ts ts' : List Token}
    (h : Alike ts ts') : Agree SameTree ((variable_ span path).map fun e => (e, ts))
      ((variable_ span' path).map fun e => (e, ts')) := by
  match path with
  | [] => exact .error rfl
  | [_] => exact .ok ⟨rfl, h⟩
  | [_, _] => exact .ok ⟨rfl, h⟩
  | _ :: _ :: _ :: _ => exact .error rfl

theorem callee_agrees (start start' : Nat) (path : List String) :
    Agree Eq (callee start path) (callee start' path) := by
  unfold callee
  split
  case h_4 => exact .error rfl
  all_goals
    dsimp only
    split
    · exact .ok rfl
    · exact .error rfl

theorem call_agrees (func : Func) {args args' : List Expr} (span span' : Span)
    (h : args.map Expr.bare = args'.map Expr.bare) :
    Agree (fun e e' => e.bare = e'.bare) (call func args span) (call func args' span') := by
  have hlength : args.length = args'.length := by simpa using congrArg List.length h
  match func, args, args', hlength with
  | .one op, [a], [a'], _ => exact .ok (by simp_all [Expr.bare])
  | .two op, [a, b], [a', b'], _ => exact .ok (by simp_all [Expr.bare])
  | .three op, [a, b, c], [a', b', c'], _ => exact .ok (by simp_all [Expr.bare])
  | .one _, [], [], _ | .two _, [], [], _ | .three _, [], [], _ | .two _, [_], [_], _
  | .three _, [_], [_], _ | .one _, [_, _], [_, _], _ | .three _, [_, _], [_, _], _
  | .one _, [_, _, _], [_, _, _], _ | .two _, [_, _, _], [_, _, _], _ => exact .error rfl
  | .one _, _ :: _ :: _ :: _ :: _, _ :: _ :: _ :: _ :: _, hlength
  | .two _, _ :: _ :: _ :: _ :: _, _ :: _ :: _ :: _ :: _, hlength
  | .three _, _ :: _ :: _ :: _ :: _, _ :: _ :: _ :: _ :: _, hlength =>
    exact .error (by simp_all)

theorem closing_agrees (eof eof' : Nat) (what : Wanted) {ts ts' : List Token} (h : Alike ts ts') :
    Agree (fun r r' => Alike r.2 r'.2) (closing eof what ts) (closing eof' what ts') := by
  rcases h with _ | ⟨hkind, h⟩
  · exact .error rfl
  · rw [closing, closing, hkind]
    split_ifs
    · exact .ok h
    · exact .error rfl

theorem pathRest_agrees (eof eof' : Nat) : ∀ {ts ts' : List Token} (path : List String)
    (stop stop' : Nat), Alike ts ts' → Agree (fun r r' => r.1.1 = r'.1.1 ∧ Alike r.2 r'.2)
      (pathRest eof path stop ts) (pathRest eof' path stop' ts')
  | [], _, path, stop, stop', .nil => .ok ⟨rfl, .nil⟩
  | [⟨k, _, _⟩], _, path, stop, stop', .cons (b := ⟨_, _, _⟩) hkind .nil => by
    cases hkind
    cases k <;> first | exact .error rfl | exact .ok ⟨rfl, .cons rfl .nil⟩
  | ⟨k, _, _⟩ :: ⟨m, _, _⟩ :: ts, _, path, stop, stop',
      .cons (b := ⟨_, _, _⟩) hkind (.cons (b := ⟨_, _, _⟩) hkind' h) => by
    cases hkind
    cases hkind'
    cases k with
    | dot =>
      cases m with
      | ident s => exact pathRest_agrees eof eof' (path ++ [s]) _ _ h
      | _ => exact .error rfl
    | _ => exact .ok ⟨rfl, .cons rfl (.cons rfl h)⟩

end Parts

section Rules

mutual

theorem chain_agrees (eof eof' : Nat) : ∀ (fuel : Nat) (level : Level) {ts ts' : List Token},
    Alike ts ts' → Agree SameTree (chain eof fuel level ts) (chain eof' fuel level ts')
  | 0, _, _, _, _ => .error rfl
  | fuel + 1, level, _, _, h => by
    rw [chain, chain]
    exact (operand_agrees eof eof' fuel level h).bind fun r r' hr =>
      chainRest_agrees eof eof' fuel level hr.1 hr.2

theorem chainRest_agrees (eof eof' : Nat) : ∀ (fuel : Nat) (level : Level) {a a' : Expr}
    {ts ts' : List Token}, a.bare = a'.bare → Alike ts ts' →
    Agree SameTree (chainRest eof fuel level a ts) (chainRest eof' fuel level a' ts')
  | 0, _, _, _, _, _, _, _ => .error rfl
  | _ + 1, _, _, _, [], _, ha, .nil => .ok ⟨ha, .nil⟩
  | fuel + 1, level, a, a', t :: ts, _, ha, .cons (b := t') hkind h => by
    rw [chainRest, chainRest, hkind]
    split
    · exact .ok ⟨ha, .cons hkind h⟩
    · rename_i op _
      exact (operand_agrees eof eof' fuel level h).bind fun r r' hr =>
        chainRest_agrees eof eof' fuel level (by simp [Expr.bare, ha, hr.1]) hr.2

theorem operand_agrees (eof eof' : Nat) : ∀ (fuel : Nat) (level : Level) {ts ts' : List Token},
    Alike ts ts' → Agree SameTree (operand eof fuel level ts) (operand eof' fuel level ts')
  | 0, _, _, _, _ => .error rfl
  | fuel + 1, .disjunction, _, _, h => chain_agrees eof eof' fuel .conjunction h
  | fuel + 1, .conjunction, _, _, h => negation_agrees eof eof' fuel h
  | fuel + 1, .sum, _, _, h => chain_agrees eof eof' fuel .product h
  | fuel + 1, .product, _, _, h => signed_agrees eof eof' fuel h

theorem negation_agrees (eof eof' : Nat) : ∀ (fuel : Nat) {ts ts' : List Token}, Alike ts ts' →
    Agree SameTree (negation eof fuel ts) (negation eof' fuel ts')
  | 0, _, _, _ => .error rfl
  | fuel + 1, [], _, .nil => comparison_agrees eof eof' fuel .nil
  | fuel + 1, t :: ts, _, .cons (b := t') hkind h => by
    rw [negation, negation, hkind]
    split_ifs
    · exact (negation_agrees eof eof' fuel h).bind fun r r' hr =>
        .ok ⟨by simp [Expr.bare, hr.1], hr.2⟩
    · exact comparison_agrees eof eof' fuel (.cons hkind h)

theorem comparison_agrees (eof eof' : Nat) : ∀ (fuel : Nat) {ts ts' : List Token}, Alike ts ts' →
    Agree SameTree (comparison eof fuel ts) (comparison eof' fuel ts')
  | 0, _, _, _ => .error rfl
  | fuel + 1, ts, ts', h => by
    rw [comparison, comparison]
    refine (chain_agrees eof eof' fuel .sum h).bind fun ⟨a, rest⟩ ⟨a', rest'⟩ ⟨ha, hrest⟩ => ?_
    rcases hrest with _ | ⟨hkind, hrest⟩
    · exact .ok ⟨ha, .nil⟩
    · simp only [hkind]
      split
      · exact .ok ⟨ha, .cons hkind hrest⟩
      · refine (chain_agrees eof eof' fuel .sum hrest).bind
          fun ⟨b, rest⟩ ⟨b', rest'⟩ ⟨hb, hrest⟩ => ?_
        have hop : ∀ op : Op2, (Expr.binary op a b none).bare = (Expr.binary op a' b' none).bare :=
          fun op => by simp_all [Expr.bare]
        rcases hrest with _ | ⟨hkind', hrest⟩
        · exact .ok ⟨hop _, .nil⟩
        · simp only [hkind']
          split_ifs
          · exact .error rfl
          · exact .ok ⟨hop _, .cons hkind' hrest⟩

theorem signed_agrees (eof eof' : Nat) : ∀ (fuel : Nat) {ts ts' : List Token}, Alike ts ts' →
    Agree SameTree (signed eof fuel ts) (signed eof' fuel ts')
  | 0, _, _, _ => .error rfl
  | fuel + 1, [], _, .nil => power_agrees eof eof' fuel .nil
  | fuel + 1, t :: ts, _, .cons (b := t') hkind h => by
    rw [signed, signed, hkind]
    split
    · exact (signed_agrees eof eof' fuel h).bind fun r r' hr =>
        .ok ⟨by simp [Expr.bare_negated, hr.1], hr.2⟩
    · exact signed_agrees eof eof' fuel h
    · exact (signed_agrees eof eof' fuel h).bind fun r r' hr =>
        .ok ⟨by simp [Expr.bare, hr.1], hr.2⟩
    · exact power_agrees eof eof' fuel (.cons hkind h)

theorem power_agrees (eof eof' : Nat) : ∀ (fuel : Nat) {ts ts' : List Token}, Alike ts ts' →
    Agree SameTree (power eof fuel ts) (power eof' fuel ts')
  | 0, _, _, _ => .error rfl
  | fuel + 1, ts, ts', h => by
    rw [power, power]
    refine (atom_agrees eof eof' fuel h).bind fun ⟨a, rest⟩ ⟨a', rest'⟩ ⟨ha, hrest⟩ => ?_
    rcases hrest with _ | ⟨hkind, hrest⟩
    · exact .ok ⟨ha, .nil⟩
    · simp only [hkind]
      split_ifs
      · exact (signed_agrees eof eof' fuel hrest).bind fun r r' hr =>
          .ok ⟨by simp_all [Expr.bare, hr.1], hr.2⟩
      · exact .ok ⟨ha, .cons hkind hrest⟩

theorem atom_agrees (eof eof' : Nat) : ∀ (fuel : Nat) {ts ts' : List Token}, Alike ts ts' →
    Agree SameTree (atom eof fuel ts) (atom eof' fuel ts')
  | 0, _, _, _ => .error rfl
  | _ + 1, [], _, .nil => .error rfl
  | fuel + 1, t :: ts, _, .cons (b := t') hkind h => by
    rw [atom, atom, hkind]
    split
    · exact .ok ⟨rfl, h⟩
    · exact .ok ⟨rfl, h⟩
    · refine (chain_agrees eof eof' fuel .disjunction h).bind fun r r' hr => ?_
      exact (closing_agrees eof eof' .closing hr.2).bind fun s s' hs => .ok ⟨hr.1, hs⟩
    · refine (pathRest_agrees eof eof' _ _ _ h).bind
        fun ⟨⟨path, stop⟩, rest⟩ ⟨⟨path', stop'⟩, rest'⟩ ⟨hpath, hrest⟩ => ?_
      obtain rfl : path = path' := hpath
      exact named_agrees eof eof' fuel path _ _ hrest
    · exact .error rfl

theorem named_agrees (eof eof' : Nat) : ∀ (fuel : Nat) (path : List String) (span span' : Span)
    {ts ts' : List Token}, Alike ts ts' →
    Agree SameTree (named eof fuel path span ts) (named eof' fuel path span' ts')
  | 0, _, _, _, _, _, _ => .error rfl
  | _ + 1, path, span, span', [], _, .nil => variable_agrees span span' path .nil
  | fuel + 1, path, span, span', t :: ts, _, .cons (b := t') hkind h => by
    rw [named, named, hkind]
    split_ifs
    · refine (callee_agrees span.start span'.start path).bind fun func func' hfunc => ?_
      subst hfunc
      refine (arguments_agrees eof eof' fuel h).bind fun r r' hr => ?_
      exact (call_agrees func _ _ hr.1).bind fun e e' he => .ok ⟨he, hr.2⟩
    · exact variable_agrees span span' path (.cons hkind h)

theorem arguments_agrees (eof eof' : Nat) : ∀ (fuel : Nat) {ts ts' : List Token}, Alike ts ts' →
    Agree SameArguments (arguments eof fuel ts) (arguments eof' fuel ts')
  | 0, _, _, _ => .error rfl
  | fuel + 1, [], _, .nil => argumentsRest_agrees eof eof' fuel rfl .nil
  | fuel + 1, t :: ts, _, .cons (b := t') hkind h => by
    rw [arguments, arguments, hkind]
    split_ifs
    · exact .ok ⟨rfl, h⟩
    · exact argumentsRest_agrees eof eof' fuel rfl (.cons hkind h)

theorem argumentsRest_agrees (eof eof' : Nat) : ∀ (fuel : Nat) {args args' : List Expr}
    {ts ts' : List Token}, args.map Expr.bare = args'.map Expr.bare → Alike ts ts' →
    Agree SameArguments (argumentsRest eof fuel args ts) (argumentsRest eof' fuel args' ts')
  | 0, _, _, _, _, _, _ => .error rfl
  | fuel + 1, args, args', ts, ts', hargs, h => by
    rw [argumentsRest, argumentsRest]
    refine (chain_agrees eof eof' fuel .disjunction h).bind
      fun ⟨a, rest⟩ ⟨a', rest'⟩ ⟨ha, hrest⟩ => ?_
    have hmore : (args ++ [a]).map Expr.bare = (args' ++ [a']).map Expr.bare := by
      simp_all
    rcases hrest with _ | ⟨hkind, hrest⟩
    · exact .error rfl
    · simp only [hkind]
      split_ifs
      · exact argumentsRest_agrees eof eof' fuel hmore hrest
      · exact (closing_agrees eof eof' .commaOrClosing (.cons hkind hrest)).bind
          fun s s' hs => .ok ⟨hmore, hs⟩

end

theorem parse_agrees (eof eof' : Nat) {ts ts' : List Token} (h : Alike ts ts') :
    Agree (fun e e' => e.bare = e'.bare) (parse eof ts) (parse eof' ts') := by
  have hempty : ts.isEmpty = ts'.isEmpty := by cases h <;> rfl
  rw [parse, parse, hempty, h.length_eq]
  split_ifs
  · exact .error rfl
  · refine (chain_agrees eof eof' _ .disjunction h).bind fun ⟨a, rest⟩ ⟨a', rest'⟩ ⟨ha, hrest⟩ => ?_
    rcases hrest with _ | ⟨hkind, -⟩
    · exact .ok ha
    · exact .error (congrArg ParseCause.trailing hkind)

end Rules

end Grammar

theorem Expr.read_ok {text : String} {e : Expr} {ts : List Token} (h : Expr.read text = .ok (e, ts)) :
    Token.scan text.toList = .ok ts ∧
      Grammar.parse (Token.byteLength text.toList) ts = .ok e := by
  simp only [Expr.read, bind, Except.bind] at h
  split at h
  · cases h
  rename_i tokens hscan
  split at h
  · cases h
  rename_i tree hparse
  cases h
  exact ⟨hscan, hparse⟩

/-- Texts with one normal form have one tree, apart from places, or are refused for one cause. -/
theorem Expr.read_agrees {text text' : String} {ts ts' : List Token}
    (h : Token.scan text.toList = .ok ts) (h' : Token.scan text'.toList = .ok ts')
    (heq : Token.normal ts = Token.normal ts') :
    Grammar.Agree (fun r r' => r.1.bare = r'.1.bare ∧ r.2 = ts ∧ r'.2 = ts')
      (Expr.read text) (Expr.read text') := by
  have halike : Grammar.Alike ts ts' :=
    List.forall₂_map_left_iff.1 (List.forall₂_map_right_iff.1
      (List.forall₂_eq_eq_eq ▸ Token.kinds_of_normal h h' heq))
  simp only [Expr.read, h, h']
  exact (Grammar.parse_agrees _ _ halike).bind fun e e' he => .ok ⟨he, rfl, rfl⟩

theorem Expr.bare_of_normal {text text' : String} {e e' : Expr} {ts ts' : List Token}
    (h : Expr.read text = .ok (e, ts)) (h' : Expr.read text' = .ok (e', ts'))
    (heq : Token.normal ts = Token.normal ts') : e.bare = e'.bare := by
  have hagree := Expr.read_agrees (Expr.read_ok h).1 (Expr.read_ok h').1 heq
  rw [h, h'] at hagree
  exact hagree.rel.1

end LinkedTables
