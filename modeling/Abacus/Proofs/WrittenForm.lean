import Abacus.Arena.Text
import Abacus.Proofs.Shape
import Abacus.Proofs.Strategies

set_option autoImplicit false

/-!
# The written form reads back

A tree is written with parentheses around every operation, and the reader folds nothing in
it that was not folded when the tree was read.  So the written form of an accepted source
is accepted, too, and what is read is the tree that was written.  Only signs are not kept
one by one: the reader collects those in front of an operand, and a negation directly
above another one cancels with it.  The least integer has to be left out, because its
numeral without the sign does not fit.

Main statements:

* `Spelled.Front`: texts that are spelled in front of others, and how they are put
  together.
* `Tree.exists_written`: the written form of a tree is spelled by a phrase that is read as
  the tree.
* `Arena.exists_parse_text`: the written form of an accepted source is accepted and means
  the same.
-/

namespace Abacus

open Parse

/-! ## Spelling a text from the left -/

/-- A text in front of which numerals and identifiers come to their end. -/
def Delimits (rest : List Char) : Prop :=
  ∀ c ∈ rest.head?, Token.isIdentPart c = false

theorem Delimits.not_isDigit {rest : List Char} (h : Delimits rest) :
    ∀ c ∈ rest.head?, c.isDigit = false := by
  intro c hc
  have hpart := h c hc
  simp only [Token.isIdentPart, Char.isAlphanum, Bool.or_eq_false_iff] at hpart
  exact hpart.1.2

/-- A blank in front of a text is layout. -/
theorem Spelled.cons_blank {c : Char} {offset stop : Nat} {text : List Char}
    {lexemes : List Lexeme} (hblank : Text.isAsciiBlank c = true)
    (h : Spelled (offset + c.utf8Size) text lexemes stop) :
    Spelled offset (c :: text) lexemes stop := by
  cases h with
  | finished hlayout =>
    rw [Nat.add_assoc, ← Text.byteLength_cons]
    exact .finished (.blank hblank hlayout)
  | lexeme hlayout hstart htext hnext hrest =>
    refine .lexeme (.blank hblank hlayout) ?_ htext hnext hrest
    rw [hstart, Text.byteLength_cons, Nat.add_assoc]

/-- The text, which begins at `offset`, is spelled with the lexemes, whatever stands
behind it, as long as that delimits it. -/
def Spelled.Front (offset : Nat) (text : List Char) (lexemes : List Lexeme) : Prop :=
  ∀ rest more stop, Delimits rest →
    Spelled (offset + Text.byteLength text) rest more stop →
    Spelled offset (text ++ rest) (lexemes ++ more) stop

namespace Spelled.Front

variable {offset : Nat} {text first second : List Char} {lexemes more : List Lexeme}

theorem nil (offset : Nat) : Front offset [] [] := fun _ _ _ _ h => h

theorem of_spelling {kind : Lexeme.Kind}
    (h : ∀ rest, Delimits rest → Spelling kind text rest) :
    ∃ span, Front offset text [⟨kind, span⟩] :=
  ⟨⟨offset, offset + Text.byteLength text⟩,
    fun rest _ _ hrest hmore => .lexeme (.nil false) rfl (h rest hrest) rfl hmore⟩

/-- A lexeme of one character needs nothing to delimit it. -/
theorem exists_cons {c : Char} {kind : Lexeme.Kind} (h : ∀ rest, Spelling kind [c] rest)
    (hfront : Front (offset + Text.byteLength [c]) text lexemes) :
    ∃ span, Front offset (c :: text) (⟨kind, span⟩ :: lexemes) := by
  refine ⟨⟨offset, offset + Text.byteLength [c]⟩, fun rest more stop hrest hmore => ?_⟩
  have htail :
      Spelled (offset + Text.byteLength [c]) (text ++ rest) (lexemes ++ more) stop := by
    refine hfront rest more stop hrest ?_
    rwa [Nat.add_assoc, ← Text.byteLength_append]
  have hspelled := Spelled.lexeme (.nil false) rfl (h (text ++ rest)) rfl htail
  exact hspelled

theorem cons_blank {c : Char} (hblank : Text.isAsciiBlank c = true)
    (h : Front (offset + c.utf8Size) text lexemes) :
    Front offset (c :: text) lexemes := by
  intro rest more stop hrest hmore
  refine Spelled.cons_blank hblank (h rest more stop hrest ?_)
  rwa [Nat.add_assoc]

/-- Two texts in a row, of which the second one delimits the first. -/
theorem append (hfirst : Front offset first lexemes)
    (hsecond : Front (offset + Text.byteLength first) second more)
    (hdelimits : ∀ rest, Delimits (second ++ rest)) :
    Front offset (first ++ second) (lexemes ++ more) := by
  intro rest lexemes' stop hrest hmore
  rw [List.append_assoc, List.append_assoc]
  refine hfirst _ _ _ (hdelimits rest) (hsecond _ _ _ hrest ?_)
  rwa [Nat.add_assoc, ← Text.byteLength_append]

/-- With nothing behind it, the text is spelled with the lexemes. -/
theorem spelled (h : Front offset text lexemes) :
    ∃ stop, Spelled offset text lexemes stop := by
  have hspelled := h [] [] _ (fun _ hc => by cases hc) (.finished (.nil false))
  rw [List.append_nil, List.append_nil] at hspelled
  exact ⟨_, hspelled⟩

theorem exists_digits (offset : Nat) {digits : List Char} (hne : digits ≠ [])
    (hdigits : ∀ c ∈ digits, c.isDigit = true) :
    ∃ span, Front offset digits [⟨.number (Text.digitsValue digits), span⟩] := by
  refine of_spelling fun rest hrest => ?_
  obtain ⟨c, cs, rfl⟩ := List.exists_cons_of_ne_nil hne
  exact .number hdigits hrest.not_isDigit

theorem exists_number (offset n : Nat) :
    ∃ span, Front offset (Text.digits n) [⟨.number n, span⟩] := by
  have hdigits :=
    exists_digits offset (Text.digits_ne_nil n) fun _ => Text.isDigit_of_mem_digits
  rwa [Text.digitsValue_digits] at hdigits

theorem exists_ident (offset : Nat) {name : String} (h : Token.isIdentifier name = true) :
    ∃ span, Front offset name.toList [⟨.ident name, span⟩] :=
  of_spelling fun _ hrest => .of_isIdentifier h hrest

end Spelled.Front

/-! ## Trees up to tags and double negations -/

namespace Tree

variable {α : Type} {t u : Tree α}

/-- The tree without its tags: operators, the order of operands, literals and
parameters. -/
def shape (t : Tree α) : Tree Unit := t.map fun _ => ()

/-- The tree under a negation, or a negation above the tree if that is none. -/
def opposite (tag : α) : Tree α → Tree α
  | negate _ operand => operand
  | t => negate tag t

/-- The tree without pairs of negations of which one stands directly above the other. -/
def cancelNegations : Tree α → Tree α
  | literal tag value => literal tag value
  | param tag index => param tag index
  | negate tag operand => operand.cancelNegations.opposite tag
  | binary tag op left right => binary tag op left.cancelNegations right.cancelNegations

/-- The largest number of operations on a path from the root to a leaf. -/
def operationDepth : Tree α → Nat
  | literal _ _ => 0
  | param _ _ => 0
  | negate _ operand => operand.operationDepth
  | binary _ _ left right => max left.operationDepth right.operationDepth + 1

theorem toOption_eval_opposite (args : List Int64) (tag : α) (t : Tree α) :
    ((t.opposite tag).eval args).toOption = (t.eval args).toOption.map (-·) := by
  cases t with
  | negate _ operand =>
    have hneg : ((-·) ∘ (-·) : Int64 → Int64) = id := funext fun _ => Int64.neg_neg
    rw [opposite, toOption_eval_negate, Option.map_map, hneg, Option.map_id, id]
  | literal | param | binary => exact toOption_eval_negate args tag _

/-- Double negations do not matter for the value. -/
theorem toOption_eval_cancelNegations (args : List Int64) (t : Tree α) :
    (t.cancelNegations.eval args).toOption = (t.eval args).toOption := by
  induction t with
  | literal => rfl
  | param => rfl
  | negate tag operand ih =>
    rw [cancelNegations, toOption_eval_opposite, ih, toOption_eval_negate]
  | binary tag op left right ihl ihr =>
    rw [cancelNegations, toOption_eval_binary, ihl, ihr, toOption_eval_binary]

theorem toOption_eval_shape (args : List Int64) (t : Tree α) :
    (t.shape.eval args).toOption = (t.eval args).toOption := by
  rw [shape, eval_map]
  cases t.eval args <;> rfl

end Tree

/-! ## Operations on operands with signs -/

namespace Phrase

variable {names : List String} {maxDepth depth : Nat} {op : Operator} {span : Span}
  {left right : Phrase .signed}

/-- The sum or product of two operands. -/
def operation (op : Operator) (span : Span) (left right : Phrase .signed) : Phrase .sum :=
  if h : op.isAdditive = true then
    addend (product (signed left)) op h span (signed right)
  else
    product (factor (signed left) op (Bool.not_eq_true _ ▸ h) span right)

theorem lexemes_operation :
    (operation op span left right).lexemes =
      left.lexemes ++ ⟨.operator op, span⟩ :: right.lexemes := by
  unfold operation
  split <;> rfl

theorem literals_operation :
    (operation op span left right).literals = left.literals ++ right.literals := by
  unfold operation
  split <;> rfl

/-- An operation is read as its operands joined, unless it divides by a literal zero. -/
theorem read_operation {l r : Tree Span} (hl : left.read names maxDepth depth = .ok l)
    (hr : right.read names maxDepth depth = .ok r)
    (hdivisor : op = .div → r.literal? ≠ some 0) :
    (operation op span left right).read names maxDepth depth =
      .ok (Tree.join op l r) := by
  unfold operation
  split
  · exact bind_eq_ok_iff.mpr ⟨l, hl, bind_eq_ok_iff.mpr ⟨r, hr, rfl⟩⟩
  · obtain ⟨t, ht⟩ := (exists_closeProduct_iff l r op).mpr hdivisor
    obtain rfl := closeProduct_eq_ok ht
    exact bind_eq_ok_iff.mpr ⟨l, hl, bind_eq_ok_iff.mpr ⟨r, hr, ht⟩⟩

end Phrase

/-! ## The phrase of a written tree -/

namespace Tree

variable {α : Type} {names : List String}

/-- A phrase of an operand with its signs is spelled by the written form of a tree, and it
is read as that tree without double negations.  Signs that come in front of it find an
operand that is no negation itself. -/
structure Written (names : List String) (t : Tree α) (offset : Nat) (signs : List Sign)
    (operand : Phrase .atom) : Prop where
  spelled : Spelled.Front offset (t.text names).toList (Phrase.atom signs operand).lexemes
  fits : ∀ n ∈ operand.literals, (n : Int) ≤ Int64.maxValue.toInt
  read : ∀ maxDepth depth, depth + t.operationDepth ≤ maxDepth →
    ∃ v u, operand.read names maxDepth depth = .ok v ∧ (∀ span w, v ≠ .negate span w) ∧
      applySigns (Sign.run signs) v = .ok u ∧ u.shape = t.shape.cancelNegations ∧
        u.literal? = t.literal?

theorem ofNat_natAbs (value : Int64) :
    Int64.ofNat value.toInt.natAbs = if value.toInt < 0 then -value else value := by
  have hcast :
      Int64.ofNat value.toInt.natAbs = Int64.ofInt (value.toInt.natAbs : Int) := rfl
  rw [hcast]
  split
  · have hneg : (value.toInt.natAbs : Int) = -value.toInt := by omega
    rw [hneg, Int64.ofInt_neg, Int64.ofInt_toInt]
  · have hpos : (value.toInt.natAbs : Int) = value.toInt := by omega
    rw [hpos, Int64.ofInt_toInt]

theorem natAbs_le {value : Int64} (h : value ≠ Int64.minValue) :
    (value.toInt.natAbs : Int) ≤ Int64.maxValue.toInt := by
  have hlow := Int64.minValue_le_toInt value
  have hhigh := Int64.toInt_le value
  have hne : Int64.minValue.toInt ≠ value.toInt :=
    fun heq => h (Int64.toInt_inj.mp heq).symm
  have hrange : Int64.minValue.toInt = -Int64.maxValue.toInt - 1 := rfl
  omega

/-- The written form of a literal is its numeral, behind a sign if it is negative. -/
theorem exists_written_literal (tag : α) {value : Int64} (hvalue : value ≠ Int64.minValue)
    (offset : Nat) :
    ∃ signs operand, Written names (literal tag value) offset signs operand := by
  have htext : ((literal tag value).text names).toList = Text.signedDigits value :=
    String.toList_ofList
  have hnat := ofNat_natAbs value
  have hfits (span : Span) :
      ∀ n ∈ (Phrase.literal span value.toInt.natAbs).literals,
        (n : Int) ≤ Int64.maxValue.toInt :=
    List.forall_mem_singleton.mpr (natAbs_le hvalue)
  by_cases hnegative : value.toInt < 0
  · rw [Text.signedDigits, if_pos hnegative] at htext
    rw [if_pos hnegative] at hnat
    obtain ⟨span, hnumber⟩ := Spelled.Front.exists_number (offset + 1) value.toInt.natAbs
    obtain ⟨minus, hminus⟩ := Spelled.Front.exists_cons (Spelling.operator .sub) hnumber
    refine ⟨[⟨true, minus⟩], .literal span value.toInt.natAbs, ?_, hfits span, ?_⟩
    · rw [htext]
      exact hminus
    · intro maxDepth depth _
      have hne : -value ≠ Int64.minValue := by
        intro heq
        rw [← Int64.neg_neg (a := value), heq] at hvalue
        exact hvalue (by decide)
      have hodd : Sign.odd [⟨true, minus⟩] = true := rfl
      obtain ⟨wider, hwider⟩ := Sign.applySigns_of_odd hodd (literal span (-value))
      simp only [literal?, if_neg hne, Int64.neg_neg] at hwider
      refine ⟨literal span (-value), literal wider value, ?_, (fun _ _ h => by cases h),
        hwider, rfl, rfl⟩
      rw [Phrase.read, hnat]
  · rw [Text.signedDigits, if_neg hnegative] at htext
    rw [if_neg hnegative] at hnat
    obtain ⟨span, hnumber⟩ := Spelled.Front.exists_number offset value.toInt.natAbs
    refine ⟨[], .literal span value.toInt.natAbs, ?_, hfits span, ?_⟩
    · rw [htext]
      exact hnumber
    · intro maxDepth depth _
      refine ⟨literal span value, literal span value, ?_, (fun _ _ h => by cases h), rfl,
        rfl, rfl⟩
      rw [Phrase.read, hnat]

/-- The written form of a parameter is its name. -/
theorem exists_written_param (hnames : Scope.Valid names) (tag : α) {index : Nat}
    (hindex : index < names.length) (offset : Nat) :
    ∃ operand, Written names (param tag index) offset [] operand := by
  obtain ⟨hidentifiers, hnodup⟩ := hnames
  have htext : (param tag index).text names = names[index] := by
    rw [text, paramName, List.getElem?_eq_getElem hindex]
  have hread : names.idxOf? names[index] = some index :=
    Phrase.idxOf?_getElem hnodup hindex
  obtain ⟨span, hident⟩ :=
    Spelled.Front.exists_ident offset (hidentifiers _ (List.getElem_mem hindex))
  refine ⟨.ident span names[index], ?_, (fun n hn => by cases hn), ?_⟩
  · rw [htext]
    exact hident
  · intro maxDepth depth _
    refine ⟨param span index, param span index, ?_, (fun _ _ h => by cases h), rfl,
      rfl, rfl⟩
    rw [Phrase.read, hread]

/-- Above a tree that is no negation, a negation has nothing to cancel with. -/
theorem opposite_shape {t : Tree α} (h : ∀ tag u, t ≠ .negate tag u) :
    t.shape.opposite () = .negate () t.shape := by
  cases t with
  | negate tag u => exact absurd rfl (h tag u)
  | literal | param | binary => rfl

/-- A negation adds a sign. -/
theorem Written.negate {t : Tree α} {offset : Nat} {signs : List Sign}
    {operand : Phrase .atom} (tag : α) (h : Written names t (offset + 1) signs operand)
    (hliteral : t.literal? = none) :
    ∃ minus, Written names (negate tag t) offset (⟨true, minus⟩ :: signs) operand := by
  have htext : ((Tree.negate tag t).text names).toList = '-' :: (t.text names).toList :=
    String.toList_append
  obtain ⟨minus, hminus⟩ := Spelled.Front.exists_cons (Spelling.operator .sub) h.spelled
  refine ⟨minus, htext ▸ hminus, h.fits, fun maxDepth depth hdepth => ?_⟩
  obtain ⟨v, u, hread, hne, hsigns, hshape, hu⟩ := h.read maxDepth depth hdepth
  rw [hliteral] at hu
  have hcancel : (Tree.negate tag t).shape.cancelNegations = u.shape.opposite () :=
    congrArg (opposite ()) hshape.symm
  have hodd : Sign.odd (⟨true, minus⟩ :: signs) = !Sign.odd signs := by
    rw [Sign.odd_cons]
    cases Sign.odd signs <;> rfl
  cases hsign : Sign.odd signs with
  | false =>
    -- The signs behind this one leave the operand as it is, and this one negates it.
    rw [Sign.applySigns_of_even hsign] at hsigns
    obtain rfl := Except.ok.inj hsigns
    rw [hsign] at hodd
    obtain ⟨span, hspan⟩ := Sign.applySigns_of_odd hodd v
    rw [hu] at hspan
    exact ⟨v, .negate span v, hread, hne, hspan,
      (hcancel.trans (opposite_shape hne)).symm, rfl⟩
  | true =>
    -- The signs behind this one negate the operand, so this one takes the negation away.
    obtain ⟨span, hspan⟩ := Sign.applySigns_of_odd hsign v
    rw [hsign] at hodd
    rw [hspan] at hsigns
    cases hv : v.literal? with
    | some value =>
      rw [hv] at hsigns
      dsimp only at hsigns
      split at hsigns
      · cases hsigns
      · obtain rfl := Except.ok.inj hsigns
        cases hu
    | none =>
      rw [hv] at hsigns
      obtain rfl := Except.ok.inj hsigns
      exact ⟨v, v, hread, hne, Sign.applySigns_of_even hodd v, hcancel.symm, hv⟩

/-- Operations that are not on literals alone are not computed. -/
theorem join_of_literal? {op : Operator} {l r : Tree Span}
    (h : l.literal? = none ∨ r.literal? = none) :
    join op l r = .binary (Span.combine l.tag r.tag) op l r := by
  rw [join]
  split
  · rename_i hl hr
    rcases h with h | h
    · cases h.symm.trans hl
    · cases h.symm.trans hr
  · rfl

/-- The parentheses, the operator and the blanks around it delimit the operands of an
operation. -/
theorem exists_spelled_binary {l r : Tree α} {offset : Nat} {left right : Phrase .signed}
    (tag : α) (op : Operator)
    (hl : Spelled.Front (offset + 1) (l.text names).toList left.lexemes)
    (hr : Spelled.Front (offset + 1 + Text.byteLength (l.text names).toList + 1 +
      Text.byteLength [op.symbol] + 1) (r.text names).toList right.lexemes) :
    ∃ opening span closing, Spelled.Front offset ((binary tag op l r).text names).toList
      (Phrase.group opening closing (.operation op span left right)).lexemes := by
  have htext : ((binary tag op l r).text names).toList =
      '(' :: ((l.text names).toList ++ ' ' :: op.symbol :: ' ' ::
        ((r.text names).toList ++ [')'])) := by
    simp [text, String.toList_append]
  have hparen : ∀ rest, Delimits ([')'] ++ rest) :=
    fun rest c hc => Option.some.inj hc ▸ by decide
  have hblank (more : List Char) : ∀ rest, Delimits (' ' :: more ++ rest) :=
    fun rest c hc => Option.some.inj hc ▸ by decide
  have hspace : Text.isAsciiBlank ' ' = true := by decide
  obtain ⟨closing, hclosing⟩ := Spelled.Front.exists_cons Spelling.closeParen (.nil _)
  obtain ⟨span, hspan⟩ := Spelled.Front.exists_cons (Spelling.operator op)
    ((hr.append hclosing hparen).cons_blank hspace)
  obtain ⟨opening, hopening⟩ := Spelled.Front.exists_cons Spelling.openParen
    (hl.append (hspan.cons_blank hspace) (hblank _))
  refine ⟨opening, span, closing, ?_⟩
  rw [htext, Phrase.lexemes, Phrase.lexemes_operation, List.append_assoc,
    List.cons_append]
  exact hopening

/-- An operation is written in parentheses. -/
theorem Written.binary {l r : Tree α} {offset : Nat} {leftSigns rightSigns : List Sign}
    {left right : Phrase .atom} (tag : α) {op : Operator}
    (hl : Written names l (offset + 1) leftSigns left)
    (hr : Written names r (offset + 1 + Text.byteLength (l.text names).toList + 1 +
      Text.byteLength [op.symbol] + 1) rightSigns right)
    (hliteral : l.literal? = none ∨ r.literal? = none)
    (hdivisor : op = .div → r.literal? ≠ some 0) :
    ∃ operand, Written names (binary tag op l r) offset [] operand := by
  obtain ⟨opening, span, closing, hspelled⟩ :=
    exists_spelled_binary tag op hl.spelled hr.spelled
  refine ⟨.group opening closing
    (.operation op span (.atom leftSigns left) (.atom rightSigns right)), hspelled, ?_,
    fun maxDepth depth hdepth => ?_⟩
  · rw [Phrase.literals, Phrase.literals_operation]
    exact List.forall_mem_append.mpr ⟨hl.fits, hr.fits⟩
  · rw [operationDepth] at hdepth
    obtain ⟨vl, ul, hvl, -, hul, hshapel, hliterall⟩ :=
      hl.read maxDepth (depth + 1) (by omega)
    obtain ⟨vr, ur, hvr, -, hur, hshaper, hliteralr⟩ :=
      hr.read maxDepth (depth + 1) (by omega)
    rw [← hliterall, ← hliteralr] at hliteral
    rw [← hliteralr] at hdivisor
    refine ⟨.binary (Span.combine ul.tag ur.tag) op ul ur, _, ?_,
      (fun _ _ h => by cases h), rfl, ?_, rfl⟩
    · rw [Phrase.read, if_pos (by omega), ← join_of_literal? hliteral]
      exact Phrase.read_operation (bind_eq_ok_iff.mpr ⟨vl, hvl, hul⟩)
        (bind_eq_ok_iff.mpr ⟨vr, hvr, hur⟩) hdivisor
    · calc Tree.binary () op ul.shape ur.shape
          = .binary () op l.shape.cancelNegations r.shape.cancelNegations := by
            rw [hshapel, hshaper]

/-- The written form of a folded tree without the least integer is spelled by a phrase
that is read as the tree without double negations. -/
theorem exists_written (hnames : Scope.Valid names) {t : Tree α} (hfolded : t.Folded)
    (hparams : ∀ index ∈ t.params, index < names.length)
    (hmin : ∀ tag, ¬ Subtree (literal tag Int64.minValue) t) (offset : Nat) :
    ∃ signs operand, Written names t offset signs operand := by
  induction t generalizing offset with
  | literal tag value =>
    refine exists_written_literal tag ?_ offset
    rintro rfl
    exact hmin tag (.refl _)
  | param tag index =>
    exact ⟨[], exists_written_param hnames tag (hparams index List.mem_cons_self) offset⟩
  | negate tag operand ih =>
    obtain ⟨signs, phrase, h⟩ :=
      ih hfolded.2 hparams (fun tag' h => hmin tag' (.negate _ h)) (offset + 1)
    obtain ⟨minus, h⟩ := h.negate tag hfolded.1
    exact ⟨_, phrase, h⟩
  | binary tag op left right ihl ihr =>
    obtain ⟨hliteral, hdivisor, hleft, hright⟩ := hfolded
    have hl (offset : Nat) :=
      ihl hleft (fun i hi => hparams i (List.mem_append_left _ hi))
      (fun tag' h => hmin tag' (.left _ _ _ h)) offset
    have hr (offset : Nat) :=
      ihr hright (fun i hi => hparams i (List.mem_append_right _ hi))
      (fun tag' h => hmin tag' (.right _ _ _ h)) offset
    obtain ⟨leftSigns, leftPhrase, hl⟩ := hl (offset + 1)
    obtain ⟨rightSigns, rightPhrase, hr⟩ := hr _
    exact ⟨[], hl.binary tag hr hliteral hdivisor⟩

end Tree

namespace Tree

variable {α : Type} {names : List String} {t : Tree α} {maxDepth : Nat}

/-- The written form of a folded tree without the least integer is accepted and read as
the tree without double negations. -/
theorem exists_read_text (hnames : Scope.Valid names) (hfolded : t.Folded)
    (hparams : ∀ index ∈ t.params, index < names.length)
    (hmin : ∀ tag, ¬ Subtree (literal tag Int64.minValue) t)
    (hdepth : t.operationDepth ≤ maxDepth) :
    ∃ u, Tree.parse (t.text names) names maxDepth = .ok u ∧
      u.shape = t.shape.cancelNegations := by
  obtain ⟨signs, operand, h⟩ := exists_written hnames hfolded hparams hmin 0
  obtain ⟨v, u, hv, -, hu, hshape, -⟩ := h.read maxDepth 0 (by omega)
  have hspells : (Phrase.product (.signed (.atom signs operand))).Spells (t.text names) :=
    h.spelled.spelled
  have hread :
      (Phrase.product (.signed (.atom signs operand))).read names maxDepth 0 = .ok u :=
    bind_eq_ok_iff.mpr ⟨v, hv, hu⟩
  exact ⟨u, parse_of_read hnames hspells h.fits hread, hshape⟩

theorem shape_map {β : Type} (f : α → β) (t : Tree α) : (t.map f).shape = t.shape := by
  unfold shape
  induction t with
  | literal => rfl
  | param => rfl
  | negate _ _ ih => exact congrArg (Tree.negate ()) ih
  | binary _ op _ _ ihl ihr => exact congrArg₂ (Tree.binary () op) ihl ihr

theorem shape_placed (base slot : Nat) (t : Tree Span) :
    (t.placed base slot).shape = t.shape := by
  rw [← shape_map Place.span, map_span_placed]

/-- Trees that differ in tags and in double negations have the same values. -/
theorem eval_eq_ok_iff_of_shape {β : Type} {u : Tree β}
    (h : u.shape = t.shape.cancelNegations) (args : List Int64) (v : Int64) :
    u.eval args = .ok v ↔ t.eval args = .ok v := by
  have hvalue : (u.eval args).toOption = (t.eval args).toOption := by
    rw [← toOption_eval_shape, h, toOption_eval_cancelNegations, toOption_eval_shape]
  cases hu : u.eval args <;> cases ht : t.eval args <;> simp_all [Except.toOption]

end Tree

namespace Arena

open Abacus.Tree (Subtree)

variable {source : String} {names : List String} {maxDepth : Nat} {a : Arena}

/-- An arena is written as the tree that it stores. -/
theorem Stores.text_eq {t : Tree Place} (h : a.Stores t) :
    a.text names = t.text names := by
  rw [Arena.text, h.tree?_eq]

/-- The written form of an accepted source without the least integer is accepted, too,
where as many parentheses may be open as there are operations one below the other.  What
it is read into is the tree that was written, with double negations removed, and it has
the same values. -/
theorem exists_parse_text (h : Arena.parse source names maxDepth = .ok a)
    (hmin : ∀ slot, a.Reachable slot → literalAt? a.nodes slot ≠ some Int64.minValue) :
    ∃ t, a.tree? = some t ∧ ∀ depth, t.operationDepth ≤ depth →
      ∃ b u, Arena.parse (a.text names) names depth = .ok b ∧ b.tree? = some u ∧
        u.shape = t.shape.cancelNegations ∧
        ∀ args v, b.evaluate args = .ok v ↔ a.evaluate args = .ok v := by
  obtain ⟨parsed, hparsed, hofTree⟩ := parse_eq_ok_iff.mp h
  obtain ⟨hnames, -⟩ := Tree.parse_eq_ok_iff.mp hparsed
  obtain ⟨t, ht, hfolded⟩ : ∃ t : Tree Place, a.Stores t ∧ t.Folded := by
    rw [← hofTree]
    exact ⟨_, stores_ofTree (params_of_parse hparsed),
      Tree.folded_placed (Tree.folded_of_parse hparsed)⟩
  have hcount := paramCount_of_parse h
  refine ⟨t, ht.tree?_eq, fun depth hdepth => ?_⟩
  have hliterals (place : Place) : ¬ Subtree (.literal place Int64.minValue) t :=
    fun hsub =>
    hmin place.slot (ht.reachable_iff_subtree.mpr ⟨_, hsub, rfl⟩)
      (ht.holds.subtree hsub).literalAt?_eq
  obtain ⟨read, hread, hshape⟩ :=
    Tree.exists_read_text hnames hfolded (hcount ▸ ht.params) hliterals hdepth
  have hb := stores_ofTree (params_of_parse hread)
  rw [← Tree.shape_placed 0 read.descendants] at hshape
  refine ⟨_, _, parse_eq_ok_iff.mpr ⟨read, ?_, rfl⟩, hb.tree?_eq, hshape,
    fun args v => ?_⟩
  · rw [ht.text_eq]
    exact hread
  · rw [hb.evaluate_eq_ok_iff, ht.evaluate_eq_ok_iff, Tree.eval_eq_ok_iff_of_shape hshape,
      hcount]
    rfl

/-- The quotient of `-(-x)/(2-7)` is written with both of its negations, and both are gone
when that is read. -/
theorem exists_parse_text_quotient :
    ∃ a, Arena.parse "-(-x)/(2-7)" ["x"] 1 = .ok a ∧ a.text ["x"] = "(--x / -5)" ∧
      ∃ b u, Arena.parse "(--x / -5)" ["x"] 1 = .ok b ∧ b.tree? = some u ∧
        u.shape = .binary () .div (.param () 0) (.literal () (-5)) ∧
          b.evaluate [20] = .ok (-4) := by
  obtain ⟨a, hparse, htree, htext, hmin, hvalue⟩ :
    ∃ a, Arena.parse "-(-x)/(2-7)" ["x"] 1 = .ok a ∧
      a.tree? = some (.binary ⟨4, ⟨0, 10⟩⟩ .div
        (.negate ⟨2, ⟨0, 4⟩⟩ (.negate ⟨1, ⟨2, 4⟩⟩ (.param ⟨0, ⟨3, 4⟩⟩ 0)))
        (.literal ⟨3, ⟨7, 10⟩⟩ (-5))) ∧
      a.text ["x"] = "(--x / -5)" ∧
      (∀ slot, a.Reachable slot → literalAt? a.nodes slot ≠ some Int64.minValue) ∧
      a.evaluate [20] = .ok (-4) := by
    have hparse : Arena.parse "-(-x)/(2-7)" ["x"] 1 =
        .ok ⟨#[⟨.param 0, ⟨3, 4⟩⟩, ⟨.negate 0, ⟨2, 4⟩⟩, ⟨.negate 1, ⟨0, 4⟩⟩,
          ⟨.literal (-5), ⟨7, 10⟩⟩, ⟨.binary .div 2 3, ⟨0, 10⟩⟩], 1⟩ := by
      decide +kernel
    refine ⟨_, hparse, by decide +kernel, by decide +kernel,
      fun slot _ => ?_, by decide +kernel⟩
    rcases slot with _ | _ | _ | _ | _ | slot
    case succ.succ.succ.succ.succ => exact nofun
    all_goals decide
  obtain ⟨t, ht, hread⟩ := exists_parse_text hparse hmin
  obtain rfl := Option.some.inj (ht.symm.trans htree)
  obtain ⟨b, u, hb, hu, hshape, hvalues⟩ := hread 1 (by decide)
  exact ⟨a, hparse, htext, b, u, htext ▸ hb, hu, hshape, (hvalues [20] (-4)).mpr hvalue⟩

end Arena

end Abacus
