import LinkedTables.Expr.Grammar
import Mathlib

/-!
# Derivations of expressions

The grammar as a family of derivation trees, one kind of tree for each rule: a chain is an operand of
its level and more operands with operators before them, an operand of a level is an expression of the
next tighter rule, and so on down to numbers, names and calls. A derivation has the tokens it derives
and the tree it stands for; more operands are put on the tree of those before them, so operators of one
level group to the left.

What follows an expression never belongs to it. How tightly a token binds what stands before it is a
number (`strength`), and a rule stops before the tokens that bind less than it does (`Rule.Stops`). Two
derivations of one rule that start at the same place, each followed by tokens that the rule stops
before, are the same (`Derivation.unique`): in every rule the next token tells which way to go.
-/

namespace LinkedTables

namespace Grammar

inductive Sign where
  | minus
  | plus
  | bang
  deriving DecidableEq, Repr

def Sign.token : Sign → TokenKind
  | minus => .minus
  | plus => .plus
  | bang => .bang

/-- The tree with a sign before it; a plus builds nothing. -/
def Sign.apply : Sign → Expr → Expr
  | minus, e => e.negated
  | plus, e => e
  | bang, e => .unary .not e none

/-- The library that may stand before the name of a function. -/
inductive Library where
  | np
  | numpy
  deriving DecidableEq, Repr

def Library.name : Library → String
  | np => "np"
  | numpy => "numpy"

/-- The tokens of the library of a call. -/
def libraryTokens : Option Library → List TokenKind
  | none => []
  | some l => [.ident l.name, .dot]

inductive Rule where
  | chain (level : Level)
  /-- What a chain goes on with after an operand. -/
  | more (level : Level)
  | operand (level : Level)
  | negation
  | comparison
  | signed
  | power
  | atom
  /-- As many arguments as a function takes, with the parenthesis after them. -/
  | arguments (func : Func)
  deriving DecidableEq, Repr

/-- The derivation trees of a rule. -/
inductive Derivation : Rule → Type where
  | chain {level : Level} (first : Derivation (.operand level)) (more : Derivation (.more level)) :
      Derivation (.chain level)
  | done {level : Level} : Derivation (.more level)
  | next {level : Level} (k : TokenKind) (op : Op2) (h : level.op? k = some op)
      (a : Derivation (.operand level)) (more : Derivation (.more level)) : Derivation (.more level)
  | conjunction (a : Derivation (.chain .conjunction)) : Derivation (.operand .disjunction)
  | negation (a : Derivation .negation) : Derivation (.operand .conjunction)
  | product (a : Derivation (.chain .product)) : Derivation (.operand .sum)
  | signed (a : Derivation .signed) : Derivation (.operand .product)
  | not (a : Derivation .negation) : Derivation .negation
  | comparison (a : Derivation .comparison) : Derivation .negation
  | alone (a : Derivation (.chain .sum)) : Derivation .comparison
  | compared (a : Derivation (.chain .sum)) (k : TokenKind) (op : Op2) (h : comparison? k = some op)
      (b : Derivation (.chain .sum)) : Derivation .comparison
  | sign (s : Sign) (a : Derivation .signed) : Derivation .signed
  | power (a : Derivation .power) : Derivation .signed
  | base (a : Derivation .atom) : Derivation .power
  | raised (a : Derivation .atom) (b : Derivation .signed) : Derivation .power
  | number (x : Float) : Derivation .atom
  | bool (b : Bool) : Derivation .atom
  | paren (a : Derivation (.chain .disjunction)) : Derivation .atom
  | name (n : String) : Derivation .atom
  | dotted (table n : String) : Derivation .atom
  | call (library : Option Library) (f : String) (func : Func) (h : Func.ofName? f = some func)
      (args : Derivation (.arguments func)) : Derivation .atom
  | one (op : Op1) (a : Derivation (.chain .disjunction)) : Derivation (.arguments (.one op))
  | two (op : Op2) (a b : Derivation (.chain .disjunction)) : Derivation (.arguments (.two op))
  | three (op : Op3) (a b c : Derivation (.chain .disjunction)) :
      Derivation (.arguments (.three op))

/-- What a derivation stands for: a tree, or for more operands the change of the tree before them. -/
abbrev Rule.Meaning : Rule → Type
  | .more _ => Expr → Expr
  | _ => Expr

namespace Derivation

/-- The tokens that are derived. -/
@[simp]
def tokens : {r : Rule} → Derivation r → List TokenKind
  | _, chain first more => first.tokens ++ more.tokens
  | _, done => []
  | _, next k _ _ a more => k :: (a.tokens ++ more.tokens)
  | _, conjunction a => a.tokens
  | _, negation a => a.tokens
  | _, product a => a.tokens
  | _, signed a => a.tokens
  | _, not a => .not :: a.tokens
  | _, comparison a => a.tokens
  | _, alone a => a.tokens
  | _, compared a k _ _ b => a.tokens ++ k :: b.tokens
  | _, sign s a => s.token :: a.tokens
  | _, power a => a.tokens
  | _, base a => a.tokens
  | _, raised a b => a.tokens ++ .starStar :: b.tokens
  | _, number x => [.number x]
  | _, bool b => [.bool b]
  | _, paren a => .lparen :: (a.tokens ++ [.rparen])
  | _, name n => [.ident n]
  | _, dotted table n => [.ident table, .dot, .ident n]
  | _, call library f _ _ args => libraryTokens library ++ .ident f :: .lparen :: args.tokens
  | _, one _ a => a.tokens ++ [.rparen]
  | _, two _ a b => a.tokens ++ .comma :: (b.tokens ++ [.rparen])
  | _, three _ a b c => a.tokens ++ .comma :: (b.tokens ++ .comma :: (c.tokens ++ [.rparen]))

/-- The tree, with all places set to one. -/
@[simp]
def tree : {r : Rule} → Derivation r → r.Meaning
  | _, chain first more => more.tree first.tree
  | _, done => fun e => e
  | _, next _ op _ a more => fun e => more.tree (.binary op e a.tree none)
  | _, conjunction a => a.tree
  | _, negation a => a.tree
  | _, product a => a.tree
  | _, signed a => a.tree
  | _, not a => .unary .not a.tree none
  | _, comparison a => a.tree
  | _, alone a => a.tree
  | _, compared a _ op _ b => .binary op a.tree b.tree none
  | _, sign s a => s.apply a.tree
  | _, power a => a.tree
  | _, base a => a.tree
  | _, raised a b => .binary .pow a.tree b.tree none
  | _, number x => .number x
  | _, bool b => .bool b
  | _, paren a => a.tree
  | _, name n => .name none n ⟨0, 0⟩
  | _, dotted table n => .name (some table) n ⟨0, 0⟩
  | _, call _ _ _ _ args => args.tree
  | _, one op a => .unary op a.tree (some ⟨0, 0⟩)
  | _, two op a b => .binary op a.tree b.tree (some ⟨0, 0⟩)
  | _, three op a b c => .ternary op a.tree b.tree c.tree (some ⟨0, 0⟩)

end Derivation

section Stops

variable {k : TokenKind} {r : Rule}

/-- How tightly a token binds what stands before it; most tokens do not bind it at all. -/
def strength : TokenKind → Option Nat
  | .or => some 0
  | .and => some 1
  | .eq | .ne | .lt | .le | .gt | .ge => some 2
  | .plus | .minus => some 3
  | .star | .slash | .percent => some 4
  | .starStar => some 5
  | .dot | .lparen => some 6
  | _ => none

def Level.strength : Level → Nat
  | disjunction => 0
  | conjunction => 1
  | sum => 3
  | product => 4

/-- The tokens that bind at least so tightly go on with an expression of the rule. -/
def Rule.strength : Rule → Nat
  | chain level | more level => level.strength
  | operand level => level.strength + 1
  | negation | comparison => 2
  | signed | power => 5
  | atom => 6
  | arguments _ => 7

/-- The next token does not go on with an expression of the rule. -/
def Rule.Stops (r : Rule) (rest : List TokenKind) : Prop :=
  ∀ k ∈ rest.head?, ∀ s ∈ Grammar.strength k, s < r.strength

theorem strength_of_op? {level : Level} {op : Op2} (h : level.op? k = some op) :
    strength k = some level.strength := by
  cases level <;> cases k <;> first | rfl | cases h

theorem strength_of_comparison? {op : Op2} (h : comparison? k = some op) : strength k = some 2 := by
  cases k <;> first | rfl | cases h

theorem Rule.Stops.nil (r : Rule) : r.Stops [] := by
  simp [Stops]

theorem Rule.Stops.of_strength (rest : List TokenKind) (s : Nat) (hk : Grammar.strength k = some s)
    (h : s < r.strength) : r.Stops (k :: rest) := by
  simp [Stops, hk, h]

theorem Rule.Stops.of_none (rest : List TokenKind) (hk : Grammar.strength k = none) :
    r.Stops (k :: rest) := by
  simp [Stops, hk]

/-- A tighter rule stops where a looser one does. -/
theorem Rule.Stops.mono {r r' : Rule} {rest : List TokenKind} (h : r.Stops rest)
    (hr : r.strength ≤ r'.strength) : r'.Stops rest :=
  fun k hk s hs => (h k hk s hs).trans_le hr

theorem Rule.Stops.absurd {rest : List TokenKind} {s : Nat} (h : r.Stops (k :: rest))
    (hk : Grammar.strength k = some s) (hs : r.strength ≤ s) : False :=
  hs.not_gt (h k rfl s hk)

/-- An operand stops where its chain goes on. -/
theorem Derivation.stops_more {level : Level} (d : Derivation (.more level)) {rest : List TokenKind}
    (h : (Rule.chain level).Stops rest) : (Rule.operand level).Stops (d.tokens ++ rest) := by
  cases d with
  | done => exact h.mono (Nat.le_succ _)
  | next k op hk a more => exact .of_strength _ _ (strength_of_op? hk) (Nat.lt_succ_self _)

end Stops

section First

/-- The tokens that an expression of a rule may start with. -/
def Rule.mayStart : Rule → TokenKind → Bool
  | _, .number _ | _, .bool _ | _, .lparen | _, .ident _ => true
  | power, _ | atom, _ => false
  | _, .minus | _, .plus | _, .bang => true
  | signed, _ | operand .product, _ | chain .product, _ | operand .sum, _ | chain .sum, _
  | comparison, _ => false
  | _, .not => true
  | _, _ => false

theorem Sign.mayStart_power (s : Sign) : Rule.power.mayStart s.token = false := by
  cases s <;> rfl

/-- Every expression has a first token. -/
theorem Derivation.exists_first {r : Rule} (d : Derivation r) (hr : ∀ level, r ≠ .more level) :
    ∃ k ks, d.tokens = k :: ks ∧ r.mayStart k = true := by
  have hpass : ∀ {r r' : Rule} {a : List TokenKind} (rest : List TokenKind),
      (∃ k ks, a = k :: ks ∧ r.mayStart k = true) →
      (∀ k, r.mayStart k = true → r'.mayStart k = true) →
      ∃ k ks, a ++ rest = k :: ks ∧ r'.mayStart k = true := by
    rintro r r' _ rest ⟨k, ks, rfl, hk⟩ hr
    exact ⟨k, ks ++ rest, rfl, hr k hk⟩
  induction d with
  | done | next => exact absurd rfl (hr _)
  | @chain level first more ihfirst _ =>
    exact hpass _ (ihfirst (by simp)) fun k hk => by
      cases level <;> cases k <;> first | rfl | cases hk
  | conjunction a ih | negation a ih | product a ih | signed a ih | comparison a ih | alone a ih
  | power a ih | base a ih =>
    obtain ⟨k, ks, htokens, hk⟩ := ih (by simp)
    exact ⟨k, ks, htokens, by cases k <;> first | rfl | cases hk⟩
  | not => exact ⟨_, _, rfl, rfl⟩
  | sign s => exact ⟨_, _, rfl, by cases s <;> rfl⟩
  | compared a _ _ _ _ ih | raised a _ ih | one _ a ih | two _ a _ ih | three _ a _ _ ih =>
    exact hpass _ (ih (by simp)) fun k hk => by cases k <;> first | rfl | cases hk
  | number | bool | paren | name | dotted => exact ⟨_, _, rfl, rfl⟩
  | call library => rcases library with _ | _ <;> exact ⟨_, _, rfl, rfl⟩

/-- No expression of a rule starts with a token that it may not start with. -/
theorem Derivation.append_ne {r : Rule} (d : Derivation r) (hr : ∀ level, r ≠ .more level)
    {k : TokenKind} (hk : r.mayStart k = false) (rest ks : List TokenKind) :
    d.tokens ++ rest ≠ k :: ks := by
  obtain ⟨k', ks', htokens, hk'⟩ := d.exists_first hr
  rw [htokens]
  rintro ⟨⟩
  cases hk.symm.trans hk'

end First

theorem libraryTokens_unique {l l' : Option Library} {f f' : String} {ks ks' : List TokenKind}
    (h : libraryTokens l ++ .ident f :: .lparen :: ks =
      libraryTokens l' ++ .ident f' :: .lparen :: ks') : l = l' ∧ f = f' ∧ ks = ks' := by
  rcases l with _ | _ | _ <;> rcases l' with _ | _ | _ <;>
    simp_all [libraryTokens, Library.name]

namespace Derivation

/-- No other derivation of the rule starts at the same place, if the rule stops after both. -/
def IsOnly {r : Rule} (d : Derivation r) : Prop :=
  ∀ (d' : Derivation r) (rest rest' : List TokenKind), d.tokens ++ rest = d'.tokens ++ rest' →
    r.Stops rest → r.Stops rest' → d = d' ∧ rest = rest'

theorem IsOnly.chain {level : Level} {first : Derivation (.operand level)}
    {more : Derivation (.more level)} (hfirst : first.IsOnly) (hmore : more.IsOnly) :
    (Derivation.chain first more).IsOnly := by
  intro d' rest rest' h hs hs'
  cases d' with
  | chain first' more' =>
    simp only [tokens, List.append_assoc] at h
    obtain ⟨rfl, hrest⟩ := hfirst _ _ _ h (more.stops_more hs) (more'.stops_more hs')
    obtain ⟨rfl, rfl⟩ := hmore _ _ _ hrest hs hs'
    exact ⟨rfl, rfl⟩

theorem isOnly_done (level : Level) : (@Derivation.done level).IsOnly := by
  intro d' rest rest' h hs hs'
  cases d' with
  | done => exact ⟨rfl, h⟩
  | next k op hk a more =>
    obtain rfl : rest = _ := h
    exact (hs.absurd (strength_of_op? hk) le_rfl).elim

theorem IsOnly.next {level : Level} {k : TokenKind} {op : Op2} (hk : level.op? k = some op)
    {a : Derivation (.operand level)} {more : Derivation (.more level)} (ha : a.IsOnly)
    (hmore : more.IsOnly) : (Derivation.next k op hk a more).IsOnly := by
  intro d' rest rest' h hs hs'
  cases d' with
  | done =>
    obtain rfl : _ = rest' := h
    exact (hs'.absurd (strength_of_op? hk) le_rfl).elim
  | next k' op' hk' a' more' =>
    simp only [tokens, List.cons_append, List.append_assoc, List.cons.injEq] at h
    obtain ⟨rfl, h⟩ := h
    obtain rfl : op = op' := Option.some.inj (hk.symm.trans hk')
    obtain ⟨rfl, hrest⟩ := ha _ _ _ h (more.stops_more hs) (more'.stops_more hs')
    obtain ⟨rfl, rfl⟩ := hmore _ _ _ hrest hs hs'
    exact ⟨rfl, rfl⟩

theorem IsOnly.not {a : Derivation .negation} (ha : a.IsOnly) : a.not.IsOnly := by
  intro d' rest rest' h hs hs'
  cases d' with
  | not a' =>
    obtain ⟨rfl, rfl⟩ := ha _ _ _ (List.cons.inj h).2 hs hs'
    exact ⟨rfl, rfl⟩
  | comparison a' => exact (a'.append_ne (by simp) rfl _ _ h.symm).elim

theorem IsOnly.comparison {a : Derivation .comparison} (ha : a.IsOnly) : a.comparison.IsOnly := by
  intro d' rest rest' h hs hs'
  cases d' with
  | not a' => exact (a.append_ne (by simp) rfl _ _ h).elim
  | comparison a' =>
    obtain ⟨rfl, rfl⟩ := ha _ _ _ h hs hs'
    exact ⟨rfl, rfl⟩

/-- A comparison ends before an operator of comparisons. -/
theorem stops_comparison {k : TokenKind} {op : Op2} (hk : comparison? k = some op)
    (rest : List TokenKind) : (Rule.chain .sum).Stops (k :: rest) :=
  .of_strength rest 2 (strength_of_comparison? hk) (by decide)

theorem IsOnly.alone {a : Derivation (.chain .sum)} (ha : a.IsOnly) : a.alone.IsOnly := by
  intro d' rest rest' h hs hs'
  cases d' with
  | alone a' =>
    obtain ⟨rfl, rfl⟩ := ha _ _ _ h (hs.mono (by decide)) (hs'.mono (by decide))
    exact ⟨rfl, rfl⟩
  | compared a' k op hk b' =>
    simp only [tokens, List.append_assoc, List.cons_append] at h
    obtain ⟨-, rfl⟩ := ha _ _ _ h (hs.mono (by decide)) (stops_comparison hk _)
    exact (hs.absurd (strength_of_comparison? hk) le_rfl).elim

theorem IsOnly.compared {a b : Derivation (.chain .sum)} {k : TokenKind} {op : Op2}
    (hk : comparison? k = some op) (ha : a.IsOnly) (hb : b.IsOnly) :
    (a.compared k op hk b).IsOnly := by
  intro d' rest rest' h hs hs'
  cases d' with
  | alone a' =>
    -- its operand is the first one here, so the operator would come after it
    simp only [tokens, List.append_assoc, List.cons_append] at h
    obtain ⟨-, rfl⟩ := ha _ _ _ h (stops_comparison hk _) (hs'.mono (by decide))
    exact (hs'.absurd (strength_of_comparison? hk) le_rfl).elim
  | compared a' k' op' hk' b' =>
    simp only [tokens, List.append_assoc, List.cons_append] at h
    obtain ⟨rfl, hrest⟩ := ha _ _ _ h (stops_comparison hk _) (stops_comparison hk' _)
    obtain ⟨rfl, hafter⟩ := List.cons.inj hrest
    obtain rfl : op = op' := Option.some.inj (hk.symm.trans hk')
    obtain ⟨rfl, rfl⟩ := hb _ _ _ hafter (hs.mono (by decide)) (hs'.mono (by decide))
    exact ⟨rfl, rfl⟩

theorem IsOnly.sign {s : Sign} {a : Derivation .signed} (ha : a.IsOnly) : (a.sign s).IsOnly := by
  intro d' rest rest' h hs hs'
  cases d' with
  | sign s' a' =>
    obtain ⟨hsign, hafter⟩ := List.cons.inj h
    obtain rfl : s = s' := by cases s <;> cases s' <;> first | rfl | cases hsign
    obtain ⟨rfl, rfl⟩ := ha _ _ _ hafter hs hs'
    exact ⟨rfl, rfl⟩
  | power a' => exact (a'.append_ne (by simp) s.mayStart_power _ _ h.symm).elim

theorem IsOnly.power {a : Derivation .power} (ha : a.IsOnly) : a.power.IsOnly := by
  intro d' rest rest' h hs hs'
  cases d' with
  | sign s' a' => exact (a.append_ne (by simp) s'.mayStart_power _ _ h).elim
  | power a' =>
    obtain ⟨rfl, rfl⟩ := ha _ _ _ h hs hs'
    exact ⟨rfl, rfl⟩

theorem stops_starStar (rest : List TokenKind) : Rule.atom.Stops (.starStar :: rest) :=
  .of_strength rest 5 rfl (by decide)

theorem IsOnly.base {a : Derivation .atom} (ha : a.IsOnly) : a.base.IsOnly := by
  intro d' rest rest' h hs hs'
  cases d' with
  | base a' =>
    obtain ⟨rfl, rfl⟩ := ha _ _ _ h (hs.mono (by decide)) (hs'.mono (by decide))
    exact ⟨rfl, rfl⟩
  | raised a' b' =>
    simp only [tokens, List.append_assoc, List.cons_append] at h
    obtain ⟨-, rfl⟩ := ha _ _ _ h (hs.mono (by decide)) (stops_starStar _)
    exact (hs.absurd rfl le_rfl).elim

theorem IsOnly.raised {a : Derivation .atom} {b : Derivation .signed} (ha : a.IsOnly)
    (hb : b.IsOnly) : (a.raised b).IsOnly := by
  intro d' rest rest' h hs hs'
  cases d' with
  | base a' =>
    simp only [tokens, List.append_assoc, List.cons_append] at h
    obtain ⟨-, rfl⟩ := ha _ _ _ h (stops_starStar _) (hs'.mono (by decide))
    exact (hs'.absurd rfl le_rfl).elim
  | raised a' b' =>
    simp only [tokens, List.append_assoc, List.cons_append] at h
    obtain ⟨rfl, hrest⟩ := ha _ _ _ h (stops_starStar _) (stops_starStar _)
    obtain ⟨rfl, rfl⟩ := hb _ _ _ (List.cons.inj hrest).2 hs hs'
    exact ⟨rfl, rfl⟩

theorem IsOnly.paren {a : Derivation (.chain .disjunction)} (ha : a.IsOnly) : a.paren.IsOnly := by
  intro d' rest rest' h hs hs'
  cases d' with
  | paren a' =>
    simp only [tokens, List.cons_append, List.append_assoc, List.cons.injEq, true_and] at h
    obtain ⟨rfl, hrest⟩ := ha _ _ _ h (.of_none _ rfl) (.of_none _ rfl)
    exact ⟨rfl, (List.cons.inj hrest).2⟩
  | number | bool | name | dotted => cases h
  | call library => rcases library with _ | _ <;> cases h

/-- The three kinds of atoms that start with a name: what comes after the name tells them apart. -/
theorem isOnly_name (n : String) : (name n).IsOnly := by
  intro d' rest rest' h hs hs'
  cases d' with
  | name n' =>
    obtain ⟨hname, rfl⟩ := List.cons.inj h
    cases hname
    exact ⟨rfl, rfl⟩
  | dotted table n' =>
    obtain ⟨-, rfl⟩ := List.cons.inj h
    exact (hs.absurd rfl le_rfl).elim
  | call library f func hf args =>
    rcases library with _ | l
    all_goals
      obtain ⟨-, rfl⟩ := List.cons.inj h
      exact (hs.absurd rfl le_rfl).elim
  | number | bool | paren => cases h

theorem isOnly_dotted (table n : String) : (dotted table n).IsOnly := by
  intro d' rest rest' h hs hs'
  cases d' with
  | name n' =>
    obtain ⟨-, rfl⟩ := List.cons.inj h
    exact (hs'.absurd rfl le_rfl).elim
  | dotted table' n' =>
    cases h
    exact ⟨rfl, rfl⟩
  | call library f func hf args =>
    rcases library with _ | l
    · cases h
    · cases h
      exact (hs.absurd rfl le_rfl).elim
  | number | bool | paren => cases h

theorem IsOnly.call {library : Option Library} {f : String} {func : Func}
    (hf : Func.ofName? f = some func) {args : Derivation (.arguments func)} (hargs : args.IsOnly) :
    (Derivation.call library f func hf args).IsOnly := by
  intro d' rest rest' h hs hs'
  cases d' with
  | name n' =>
    rcases library with _ | l
    all_goals
      obtain ⟨-, rfl⟩ := List.cons.inj h
      exact (hs'.absurd rfl le_rfl).elim
  | dotted table' n' =>
    rcases library with _ | l
    · cases h
    · cases h
      exact (hs'.absurd rfl le_rfl).elim
  | call library' f' func' hf' args' =>
    simp only [tokens, List.append_assoc, List.cons_append] at h
    obtain ⟨rfl, rfl, hafter⟩ := libraryTokens_unique h
    obtain rfl : func = func' := Option.some.inj (hf.symm.trans hf')
    obtain ⟨rfl, rfl⟩ := hargs _ _ _ hafter (hs.mono (Nat.le_succ 6)) (hs'.mono (Nat.le_succ 6))
    exact ⟨rfl, rfl⟩
  | number | bool | paren => rcases library with _ | l <;> cases h

theorem IsOnly.one {op : Op1} {a : Derivation (.chain .disjunction)} (ha : a.IsOnly) :
    (Derivation.one op a).IsOnly := by
  intro d' rest rest' h hs hs'
  cases d' with
  | one _ a' =>
    simp only [tokens, List.append_assoc, List.cons_append, List.nil_append] at h
    obtain ⟨rfl, hrest⟩ := ha _ _ _ h (.of_none _ rfl) (.of_none _ rfl)
    exact ⟨rfl, (List.cons.inj hrest).2⟩

theorem IsOnly.two {op : Op2} {a b : Derivation (.chain .disjunction)} (ha : a.IsOnly)
    (hb : b.IsOnly) : (Derivation.two op a b).IsOnly := by
  intro d' rest rest' h hs hs'
  cases d' with
  | two _ a' b' =>
    simp only [tokens, List.append_assoc, List.cons_append, List.nil_append] at h
    obtain ⟨rfl, hcomma⟩ := ha _ _ _ h (.of_none _ rfl) (.of_none _ rfl)
    obtain ⟨rfl, hrest⟩ := hb _ _ _ (List.cons.inj hcomma).2 (.of_none _ rfl) (.of_none _ rfl)
    exact ⟨rfl, (List.cons.inj hrest).2⟩

theorem IsOnly.three {op : Op3} {a b c : Derivation (.chain .disjunction)} (ha : a.IsOnly)
    (hb : b.IsOnly) (hc : c.IsOnly) : (Derivation.three op a b c).IsOnly := by
  intro d' rest rest' h hs hs'
  cases d' with
  | three _ a' b' c' =>
    simp only [tokens, List.append_assoc, List.cons_append, List.nil_append] at h
    obtain ⟨rfl, hcomma⟩ := ha _ _ _ h (.of_none _ rfl) (.of_none _ rfl)
    obtain ⟨rfl, hcomma'⟩ := hb _ _ _ (List.cons.inj hcomma).2 (.of_none _ rfl) (.of_none _ rfl)
    obtain ⟨rfl, hrest⟩ := hc _ _ _ (List.cons.inj hcomma').2 (.of_none _ rfl) (.of_none _ rfl)
    exact ⟨rfl, (List.cons.inj hrest).2⟩

theorem isOnly {r : Rule} (d : Derivation r) : d.IsOnly := by
  induction d with
  | chain _ _ hfirst hmore => exact hfirst.chain hmore
  | done => exact isOnly_done _
  | next _ _ hk _ _ ha hmore => exact ha.next hk hmore
  | conjunction _ ha | negation _ ha | product _ ha | signed _ ha =>
    intro d' rest rest' h hs hs'
    cases d'
    obtain ⟨rfl, rfl⟩ := ha _ _ _ h hs hs'
    exact ⟨rfl, rfl⟩
  | not _ ha => exact ha.not
  | comparison _ ha => exact ha.comparison
  | alone _ ha => exact ha.alone
  | compared _ _ _ hk _ ha hb => exact ha.compared hk hb
  | sign _ _ ha => exact ha.sign
  | power _ ha => exact ha.power
  | base _ ha => exact ha.base
  | raised _ _ ha hb => exact ha.raised hb
  | number | bool =>
    intro d' rest rest' h hs hs'
    cases d' with
    | call library => rcases library with _ | _ <;> cases h
    | _ => cases h <;> exact ⟨rfl, rfl⟩
  | paren _ ha => exact ha.paren
  | name n => exact isOnly_name n
  | dotted table n => exact isOnly_dotted table n
  | call _ _ _ hf _ hargs => exact hargs.call hf
  | one _ _ ha => exact ha.one
  | two _ _ _ ha hb => exact ha.two hb
  | three _ _ _ _ ha hb hc => exact ha.three hb hc

/-- No tokens have two derivations. -/
theorem unique {r : Rule} {d d' : Derivation r} (h : d.tokens = d'.tokens) : d = d' :=
  (d.isOnly d' [] [] (by simpa using h) (.nil r) (.nil r)).1

end Derivation

end Grammar

end LinkedTables
