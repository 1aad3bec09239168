import Abacus.Proofs.Scanning
import Abacus.Proofs.Shape
import Abacus.Proofs.Step

set_option autoImplicit false

/-!
# Where trees and violations stand in a source

At any moment the reader holds trees, runs of signs and opening parentheses.  Written down
from left to right, they stand one behind the other in front of the tokens to come.  A
step only takes the next token into this row, joins the last members of it or leaves
members out, so the order is kept.  The span of a new tree runs from one member to another
one, and that of a violation from a member to the token.

Main statements:

* `Parse.outcome_step`, `Parse.lined_of_foldlM`: the row stays in order, and a violation
  of it has a span that is not empty.
* `Parse.ranged_of_ofScan`, `Parse.proper_of_ofScan`: the spans of the tree or of the
  violation.
* `Arena.exists_nested_of_parse`: the span of every node encloses those of its operands.
* `Arena.ranges_of_parse`: the spans in the arena of a source, or of the error.
-/

namespace Abacus

/-- The span is not empty, and it is cut out of the source between whole characters. -/
structure Span.Proper (span : Span) (source : List Char) : Prop where
  lt : span.start < span.stop
  start : Text.IsBoundary source span.start
  stop : Text.IsBoundary source span.stop

/-- All nodes of a tree, whose tags have spans, have proper ones.  The span of an
operation runs from its left operand to the right one behind it, and a parameter stands
where its name is written. -/
def Tree.Ranged {α : Type} (span : α → Span) (source : List Char) (names : List String) :
    Tree α → Prop
  | literal tag _ => (span tag).Proper source
  | param tag index => (span tag).Proper source ∧
    ∃ name, names[index]? = some name ∧ (span tag).text? source = some name.toList
  | negate tag operand =>
    (span tag).Proper source ∧ (span operand.tag).Within (span tag) ∧
    operand.Ranged span source names
  | binary tag _ left right => (span tag).Proper source ∧
    (span tag).start = (span left.tag).start ∧ (span tag).stop = (span right.tag).stop ∧
    (span left.tag).stop ≤ (span right.tag).start ∧
    left.Ranged span source names ∧ right.Ranged span source names

/-- The span of a token is proper, and an identifier is what stands there. -/
def Token.Ranged (source : List Char) (t : Token) : Prop :=
  t.span.Proper source ∧ ∀ name, t.kind = .ident name →
    t.span.text? source = some name.toList

/-- The spans of an arena: all are proper; an operation runs from its left operand to the
right one behind it, a negation encloses its operand, and a parameter stands where its
name is written. -/
structure Arena.Ranged (a : Arena) (source : List Char) (names : List String) : Prop where
  proper : ∀ slot < a.size, (placeAt a.nodes slot).span.Proper source ∧
    (placeAt a.nodes slot).span.stop ≤ Text.byteLength source
  param : ∀ slot index, kindAt? a.nodes slot = some (.param index) →
    ∃ name, names[index]? = some name ∧
      (placeAt a.nodes slot).span.text? source = some name.toList
  negate : ∀ slot operand, kindAt? a.nodes slot = some (.negate operand) →
    operand < slot ∧
    (placeAt a.nodes operand).span.Within (placeAt a.nodes slot).span
  binary : ∀ slot op left right, kindAt? a.nodes slot = some (.binary op left right) →
    left < slot ∧ right < slot ∧
      (placeAt a.nodes slot).span.start = (placeAt a.nodes left).span.start ∧
      (placeAt a.nodes slot).span.stop = (placeAt a.nodes right).span.stop ∧
      (placeAt a.nodes left).span.stop ≤ (placeAt a.nodes right).span.start

/-- The span of an error: its ends are in order, within the source and between whole
characters.  If it is empty, the end of the source stands where there should be an
expression. -/
structure ParseError.Ranged (e : ParseError) (source : List Char) : Prop where
  le : e.span.start ≤ e.span.stop
  within : e.span.stop ≤ Text.byteLength source
  start : Text.IsBoundary source e.span.start
  stop : Text.IsBoundary source e.span.stop
  empty : e.span.start = e.span.stop →
    e.cause = .illegalToken "expression" Token.describeEnd ∧
    e.span = .point (Text.byteLength source) ∧
    (Scan.ofText source).ending = .ok (Text.byteLength source)

variable {source : List Char} {names : List String}

/-! ## Trees -/

theorem Span.combine_of_le {a b : Span} (ha : a.Proper source) (hb : b.Proper source)
    (h : a.stop ≤ b.start) : combine a b = ⟨a.start, b.stop⟩ := by
  have hlt := ha.lt
  have hlt' := hb.lt
  rw [combine, Nat.min_eq_left (by omega), Nat.max_eq_right (by omega)]

namespace Tree

theorem Ranged.proper {α : Type} {span : α → Span} {t : Tree α}
    (h : t.Ranged span source names) :
    (span t.tag).Proper source := by
  cases t with
  | literal => exact h
  | param | negate | binary => exact h.1

theorem ranged_join {left right : Tree Span} (op : Operator)
    (hl : left.Ranged id source names) (hr : right.Ranged id source names)
    (hle : left.tag.stop ≤ right.tag.start) :
    (join op left right).Ranged id source names := by
  have hleft : left.tag.Proper source := hl.proper
  have hright : right.tag.Proper source := hr.proper
  have hproper : (⟨left.tag.start, right.tag.stop⟩ : Span).Proper source :=
    ⟨Nat.lt_of_lt_of_le hleft.lt (Nat.le_trans hle (Nat.le_of_lt hright.lt)), hleft.start,
      hright.stop⟩
  have hbinary :
      (binary ⟨left.tag.start, right.tag.stop⟩ op left right).Ranged id source names :=
    ⟨hproper, rfl, rfl, hle, hl, hr⟩
  rw [join, Span.combine_of_le hleft hright hle]
  split
  · split
    · exact hproper
    · exact hbinary
  · exact hbinary

theorem tag_join (op : Operator) (left right : Tree Span) :
    (join op left right).tag = Span.combine left.tag right.tag := by
  rw [join]
  split
  · split <;> rfl
  · rfl

theorem tag_join_of_le {left right : Tree Span} (op : Operator)
    (hl : left.Ranged id source names) (hr : right.Ranged id source names)
    (hle : left.tag.stop ≤ right.tag.start) :
    (join op left right).tag = ⟨left.tag.start, right.tag.stop⟩ :=
  (tag_join op left right).trans (Span.combine_of_le hl.proper hr.proper hle)

theorem ranged_placed {base slot : Nat} {t : Tree Span} (h : t.Ranged id source names) :
    (t.placed base slot).Ranged Place.span source names := by
  induction t generalizing base slot with
  | literal => exact h
  | param => exact h
  | negate span operand ih =>
    obtain ⟨hproper, hwithin, hoperand⟩ := h
    refine ⟨hproper, ?_, ih hoperand⟩
    rw [tag_placed]
    exact hwithin
  | binary span op left right ihl ihr =>
    obtain ⟨hproper, hstart, hstop, hle, hl, hr⟩ := h
    refine ⟨hproper, ?_, ?_, ?_, ihl hl, ihr hr⟩
    · rw [tag_placed]
      exact hstart
    · rw [tag_placed]
      exact hstop
    · rw [tag_placed, tag_placed]
      exact hle

/-- If an operation runs from its left operand to the right one, its span encloses
both. -/
theorem Ranged.nested {α : Type} {span : α → Span} {t : Tree α}
    (h : t.Ranged span source names) :
    t.Nested span := by
  induction t with
  | literal => trivial
  | param => trivial
  | negate tag operand ih => exact ⟨h.2.1, ih h.2.2⟩
  | binary tag op left right ihl ihr =>
    obtain ⟨-, hstart, hstop, hle, hl, hr⟩ := h
    have hleft := hl.proper.lt
    have hright := hr.proper.lt
    exact ⟨⟨by omega, by omega⟩, ⟨by omega, by omega⟩, ihl hl, ihr hr⟩

theorem Subtree.ranged {t u : Tree Place} (h : Subtree u t)
    (ht : t.Ranged Place.span source names) : u.Ranged Place.span source names :=
  h.inherit (P := Ranged Place.span source names) (fun _ _ h => h.2.2)
    (fun _ _ _ _ h => h.2.2.2.2.1) (fun _ _ _ _ h => h.2.2.2.2.2) ht

end Tree

namespace Parse

/-! ## The row of what the reader holds -/

/-- Something that the reader holds. -/
inductive Piece where
  | tree (t : Tree Span)
  /-- A run of signs, of which the reader knows the start. -/
  | signs (start : Nat)
  | opening (span : Span)

def Piece.span : Piece → Span
  | tree t => t.tag
  | signs start => .point start
  | opening span => span

/-- What is held stands in the source as it should. -/
def Piece.Ranged (source : List Char) (names : List String) : Piece → Prop
  | tree t => t.Ranged id source names
  | signs start => Text.IsBoundary source start
  | opening span => span.Proper source

def pendingPieces : Option Pending → List Piece
  | none => []
  | some pending => [.tree pending.left]

def signPieces : Option Signs → List Piece
  | none => []
  | some run => [.signs run.start]

def Context.pieces (context : Context) : List Piece :=
  pendingPieces context.sum ++ (pendingPieces context.product ++ signPieces context.signs)

def groupPieces : List Group → List Piece
  | [] => []
  | group :: outer =>
    groupPieces outer ++ (group.context.pieces ++ [.opening group.opening])

/-- What a state holds, from left to right. -/
def State.pieces : State → List Piece
  | .operand context groups => groupPieces groups ++ context.pieces
  | .operator sum groups t => groupPieces groups ++ (pendingPieces sum ++ [.tree t])

/-- Pieces stand one behind the other, and all in front of the ranges that follow. -/
structure Lined (source : List Char) (names : List String) (pieces : List Piece)
    (following : List Span) : Prop where
  ranged : ∀ p ∈ pieces, p.Ranged source names
  ordered : (pieces.map Piece.span ++ following).Pairwise fun r s => r.stop ≤ s.start

variable {pieces front back : List Piece} {p q : Piece} {span : Span}
  {following : List Span}

/-- Some ranges in a row can be replaced by one that takes up no more room. -/
theorem pairwise_replace {before taken after : List Span}
    (h : (before ++ taken ++ after).Pairwise fun r s => r.stop ≤ s.start)
    (hstart : ∃ r ∈ taken, r.start ≤ span.start)
    (hstop : ∃ r ∈ taken, span.stop ≤ r.stop) :
    (before ++ span :: after).Pairwise fun r s => r.stop ≤ s.start := by
  obtain ⟨htaken, hafter, hbetween⟩ := List.pairwise_append.mp h
  obtain ⟨hbefore, -, hfirst⟩ := List.pairwise_append.mp htaken
  obtain ⟨first, hmem, hstart⟩ := hstart
  obtain ⟨last, hmem', hstop⟩ := hstop
  refine List.pairwise_append.mpr
    ⟨hbefore, List.pairwise_cons.mpr ⟨fun s hs => ?_, hafter⟩,
      fun r hr => List.forall_mem_cons.mpr ⟨?_, hbetween r (List.mem_append_left _ hr)⟩⟩
  · exact Nat.le_trans hstop (hbetween last (List.mem_append_right _ hmem') s hs)
  · exact Nat.le_trans (hfirst r hr first hmem) hstart

namespace Lined

theorem last (h : Lined source names (front ++ [p]) following) : p.Ranged source names :=
  h.ranged p (List.mem_append_right _ List.mem_cons_self)

/-- The next range is not used. -/
theorem skip (h : Lined source names pieces (span :: following)) :
    Lined source names pieces following :=
  ⟨h.ranged, h.ordered.sublist (List.Sublist.append_left (List.sublist_cons_self _ _) _)⟩

/-- A piece is not used any more. -/
theorem drop (h : Lined source names (front ++ p :: back) following) :
    Lined source names (front ++ back) following where
  ranged q hq := by
    refine h.ranged q ?_
    rw [List.mem_append] at hq ⊢
    exact hq.imp_right (List.mem_cons_of_mem p)
  ordered := by
    have hsublist : (front ++ back).Sublist (front ++ p :: back) :=
      List.Sublist.append_left (List.sublist_cons_self _ _) _
    exact h.ordered.sublist ((hsublist.map _).append_right _)

/-- The next range becomes a piece. -/
theorem push (h : Lined source names pieces (span :: following))
    (hp : p.Ranged source names) (hwithin : p.span.Within span) :
    Lined source names (pieces ++ [p]) following where
  ranged := List.forall_mem_append.mpr ⟨h.ranged, List.forall_mem_singleton.mpr hp⟩
  ordered := by
    have hordered : (pieces.map Piece.span ++ [span] ++ following).Pairwise
        fun r s => r.stop ≤ s.start := by
      rw [List.append_assoc]
      exact h.ordered
    rw [List.map_append, List.append_assoc]
    exact pairwise_replace hordered ⟨span, List.mem_cons_self, hwithin.1⟩
      ⟨span, List.mem_cons_self, hwithin.2⟩

/-- The last two pieces stand in order. -/
theorem last_two (h : Lined source names (front ++ [p, q]) following) :
    p.Ranged source names ∧ q.Ranged source names ∧ p.span.stop ≤ q.span.start := by
  have hordered := (List.pairwise_append.mp h.ordered).1
  rw [List.map_append, List.pairwise_append] at hordered
  exact ⟨h.ranged p (List.mem_append_right _ List.mem_cons_self),
    h.ranged q (List.mem_append_right _ (List.mem_cons_of_mem _ List.mem_cons_self)),
    List.rel_of_pairwise_cons hordered.2.1 List.mem_cons_self⟩

/-- The last two pieces become one that takes up no more room. -/
theorem merge {n : Piece} (h : Lined source names (front ++ [p, q]) following)
    (hn : n.Ranged source names) (hstart : p.span.start ≤ n.span.start)
    (hstop : n.span.stop ≤ q.span.stop) :
    Lined source names (front ++ [n]) following where
  ranged := by
    have hfront := (List.forall_mem_append.mp h.ranged).1
    exact List.forall_mem_append.mpr ⟨hfront, List.forall_mem_singleton.mpr hn⟩
  ordered := by
    have hordered := h.ordered
    rw [List.map_append] at hordered
    rw [List.map_append, List.append_assoc]
    exact pairwise_replace hordered ⟨p.span, List.mem_cons_self, hstart⟩
      ⟨q.span, List.mem_cons_of_mem _ List.mem_cons_self, hstop⟩

/-- A sum or a product is completed by the last piece. -/
theorem closeSum {pending : Option Pending} {t : Tree Span}
    (h : Lined source names (front ++ (pendingPieces pending ++ [.tree t])) following) :
    Lined source names (front ++ [.tree (Parse.closeSum pending t)]) following := by
  cases pending with
  | none => exact h
  | some pending =>
    obtain ⟨hleft, ht, hle⟩ := h.last_two
    have htag := Tree.tag_join_of_le pending.op hleft ht hle
    have hstart :
        pending.left.tag.start = (Tree.join pending.op pending.left t).tag.start := by
      rw [htag]
    have hstop : (Tree.join pending.op pending.left t).tag.stop = t.tag.stop := by
      rw [htag]
    exact h.merge (n := .tree _) (Tree.ranged_join pending.op hleft ht hle)
      (Nat.le_of_eq hstart)
      (Nat.le_of_eq hstop)

/-- The span of an operand with signs in front of it is proper. -/
theorem proper_signs {run : Signs} {atom : Tree Span}
    (h : Lined source names (front ++ [.signs run.start, .tree atom]) following) :
    (⟨run.start, atom.tag.stop⟩ : Span).Proper source := by
  obtain ⟨hstart, hatom, hle⟩ := h.last_two
  have hproper := Tree.Ranged.proper hatom
  exact ⟨Nat.lt_of_le_of_lt hle hproper.lt, hstart, hproper.stop⟩

/-- An operand takes the signs in front of it. -/
theorem applySigns {signs : Option Signs} {atom t : Tree Span}
    (h : Lined source names (front ++ (signPieces signs ++ [.tree atom])) following)
    (hsigns : Parse.applySigns signs atom = .ok t) :
    Lined source names (front ++ [.tree t]) following := by
  rcases applySigns_eq_ok hsigns with rfl | ⟨run, rfl, ht⟩
  · cases signs with
    | none => exact h
    | some run => exact h.drop
  · have hproper := h.proper_signs
    obtain ⟨-, hatom, hle⟩ := h.last_two
    clear hsigns
    rcases ht with rfl | ⟨value, rfl⟩
    · exact h.merge (n := .tree _) ⟨hproper, ⟨hle, Nat.le_refl _⟩, hatom⟩ (Nat.le_refl _)
        (Nat.le_refl _)
    · exact h.merge (n := .tree _) hproper (Nat.le_refl _) (Nat.le_refl _)

end Lined

/-! ## Steps -/

/-- What a step leaves: pieces that are still in line, or a violation with a proper
span. -/
def Outcome (source : List Char) (names : List String) (following : List Span) :
    Except Violation State → Prop
  | .ok state => Lined source names state.pieces following
  | .error v => v.span.Proper source

variable {maxDepth : Nat} {state state' : State} {token : Token} {v : Violation}

/-- An atom completes the product in front of it. -/
theorem outcome_takeAtom {context : Context} {groups : List Group} {atom : Tree Span}
    (h : Lined source names (groupPieces groups ++ context.pieces ++ [.tree atom])
      following) :
    Outcome source names following (takeAtom context groups atom) := by
  -- The signs are the last piece in front of the atom, and the product is the last one
  -- before them.
  simp only [Context.pieces, ← List.append_assoc] at h
  rw [List.append_assoc _ (signPieces _)] at h
  cases htake : takeAtom context groups atom with
  | ok state =>
    obtain ⟨signed, operand, hsigns, hproduct, rfl⟩ := takeAtom_eq_ok htake
    obtain rfl := closeProduct_eq_ok hproduct
    have hsigned := h.applySigns hsigns
    rw [List.append_assoc _ (pendingPieces _)] at hsigned
    have hoperand := hsigned.closeSum
    rw [List.append_assoc] at hoperand
    exact hoperand
  | error v =>
    rcases takeAtom_eq_error htake with ⟨run, hrun, rfl⟩ | ⟨signed, hsigns, rfl⟩
    · rw [hrun] at h
      exact h.proper_signs
    · exact Tree.Ranged.proper (h.applySigns hsigns).last

/-- A group that is not closed reaches from its parenthesis to what follows. -/
theorem proper_of_unexpected {groups : List Group} {found : String}
    (h : Lined source names (groupPieces groups ++ back) (span :: following))
    (hle : span.start ≤ span.stop) (hstop : Text.IsBoundary source span.stop)
    (hproper : groups = [] → span.Proper source) :
    (unexpectedAfterOperand groups found span).span.Proper source := by
  cases groups with
  | nil => exact hproper rfl
  | cons group outer =>
    have hmem : Piece.opening group.opening ∈ groupPieces (group :: outer) ++ back :=
      List.mem_append_left _
        (List.mem_append_right _ (List.mem_append_right _ List.mem_cons_self))
    have hopening : group.opening.Proper source := h.ranged _ hmem
    have hbefore : group.opening.stop ≤ span.start :=
      (List.pairwise_append.mp h.ordered).2.2 _ (List.mem_map_of_mem hmem) _
        List.mem_cons_self
    exact ⟨Nat.lt_of_lt_of_le hopening.lt (Nat.le_trans hbefore hle),
      hopening.start, hstop⟩

/-- A step uses up the next token and keeps the pieces in line. -/
theorem outcome_step (h : Lined source names state.pieces (token.span :: following))
    (htoken : token.Ranged source) :
    Outcome source names following (step names maxDepth state token) := by
  have htransition := transition_step names maxDepth state token
  generalize step names maxDepth state token = result at htransition
  obtain ⟨hproper, hident⟩ := htoken
  cases htransition with
  | sign context groups span op =>
    obtain ⟨sum, product, signs⟩ := context
    cases signs with
    | none =>
      have hsign := h.push (p := .signs span.start) hproper.start
        ⟨Nat.le_refl _, Nat.le_of_lt hproper.lt⟩
      simp only [State.pieces, Context.pieces, signPieces, List.append_nil,
        List.append_assoc] at hsign
      exact hsign
    | some run => exact h.skip
  | literal context groups span value =>
    exact outcome_takeAtom
      (h.push (p := .tree (.literal span value)) hproper (.refl span))
  | param context groups span name index hindex =>
    obtain ⟨hlt, hname, -⟩ := List.idxOf?_eq_some_iff.mp hindex
    have hparam : (Tree.param span index).Ranged id source names :=
      ⟨hproper, name, List.getElem?_eq_some_iff.mpr ⟨hlt, hname⟩, hident name rfl⟩
    exact outcome_takeAtom (h.push (p := .tree (.param span index)) hparam (.refl span))
  | opening context groups span =>
    have hopening := h.push (p := .opening span) hproper (.refl span)
    rw [State.pieces, List.append_assoc] at hopening
    simp only [Outcome, State.pieces, groupPieces, Context.empty, Context.pieces,
      pendingPieces, signPieces, List.append_nil]
    exact hopening
  | additive => exact h.skip.closeSum
  | multiplicative => exact h.skip
  | closing sum group outer operand span =>
    -- The opening parenthesis stands in front of the sum that it encloses, and is left
    -- out.
    have hgroup := h.skip.closeSum
    simp only [groupPieces, ← List.append_assoc] at hgroup
    rw [List.append_assoc _ [_]] at hgroup
    exact outcome_takeAtom hgroup.drop
  | undefined | tooDeep | noOperand => exact hproper
  | noOperator =>
    exact proper_of_unexpected h (Nat.le_of_lt hproper.lt) hproper.stop fun _ => hproper

/-- The pieces stay in line while tokens are taken. -/
theorem lined_of_foldlM {tokens : List Token}
    (h : Lined source names state.pieces (tokens.map Token.span ++ following))
    (htokens : ∀ t ∈ tokens, t.Ranged source)
    (hrun : tokens.foldlM (step names maxDepth) state = .ok state') :
    Lined source names state'.pieces following := by
  induction tokens generalizing state with
  | nil =>
    obtain rfl := Except.ok.inj hrun
    exact h
  | cons token tokens ih =>
    rw [List.forall_mem_cons] at htokens
    obtain ⟨next, hstep, hrun⟩ := bind_eq_ok_iff.mp hrun
    have hnext : Outcome source names _ (step names maxDepth state token) :=
      outcome_step h htokens.1
    rw [hstep] at hnext
    exact ih hnext htokens.2 hrun

/-! ## Whole sources -/

theorem ranged_of_mem_tokens {t : Token} (h : t ∈ (Scan.ofText source).tokens) :
    t.Ranged source := by
  obtain ⟨before, run, rest, hcuts, hmatches⟩ := (Scan.covers_ofText source).tokens t h
  refine ⟨⟨hcuts.lt hmatches.ne_nil, hcuts.boundaries.1, hcuts.boundaries.2⟩,
    fun name hkind => ?_⟩
  rw [hkind] at hmatches
  rw [← hmatches.2]
  exact hcuts.text?

theorem lined_start (source : List Char) (names : List String) :
    Lined source names start.pieces
      ((Scan.ofText source).tokens.map Token.span ++ [(Scan.ofText source).endSpan]) :=
  ⟨by simp [start, State.pieces, groupPieces, Context.pieces, Context.empty,
    pendingPieces, signPieces], (Scan.covers_ofText source).ordered⟩

theorem ranged_of_ofScan {t : Tree Span}
    (h : ofScan names maxDepth (Scan.ofText source) = .ok t) :
    t.Ranged id source names := by
  obtain ⟨state, hrun, h⟩ := bind_eq_ok_iff.mp h
  obtain ⟨stop, -, h⟩ := bind_eq_ok_iff.mp h
  have hlined :=
    lined_of_foldlM (lined_start source names) (fun _ => ranged_of_mem_tokens) hrun
  cases state with
  | operand => cases h
  | operator sum groups operand =>
    cases groups with
    | nil =>
      obtain rfl := Except.ok.inj h
      exact hlined.closeSum.last
    | cons => cases h

/-- A violation has a proper span, unless the source ends where there should be an
expression. -/
theorem proper_of_ofScan (h : ofScan names maxDepth (Scan.ofText source) = .error v) :
    v.span.Proper source ∨ (Scan.ofText source).ending = .ok (Text.byteLength source) ∧
      v = ⟨.illegalToken "expression" Token.describeEnd,
        .point (Text.byteLength source)⟩ := by
  have hcovers := Scan.covers_ofText source
  have hstart := lined_start source names
  rcases bind_eq_error_iff.mp h with hfail | ⟨state, hrun, h⟩
  · obtain ⟨first, token, more, middle, htokens, hfirst, hstep⟩ := foldlM_eq_error hfail
    have hranged : ∀ t ∈ first ++ token :: more, t.Ranged source := fun t ht =>
      ranged_of_mem_tokens (htokens ▸ ht)
    rw [List.forall_mem_append, List.forall_mem_cons] at hranged
    rw [htokens, List.map_append, List.append_assoc] at hstart
    have hlined := lined_of_foldlM hstart hranged.1 hfirst
    have houtcome : Outcome source names _ (step names maxDepth middle token) :=
      outcome_step hlined hranged.2.1
    rw [hstep] at houtcome
    exact Or.inl houtcome
  · have hlined := lined_of_foldlM hstart (fun _ => ranged_of_mem_tokens) hrun
    rcases bind_eq_error_iff.mp h with hending | ⟨stop, hending, h⟩
    · obtain ⟨before, run, rest, hcuts, hrejects⟩ := hcovers.violation v hending
      exact Or.inl ⟨hcuts.lt hrejects.ne_nil, hcuts.boundaries.1, hcuts.boundaries.2⟩
    · obtain rfl := hcovers.finished stop hending
      cases state with
      | operand =>
        obtain rfl := Except.error.inj h
        exact Or.inr ⟨hending, rfl⟩
      | operator sum groups operand =>
        cases groups with
        | nil => cases h
        | cons group outer =>
          obtain rfl := Except.error.inj h
          rw [Scan.endSpan, hending] at hlined
          exact Or.inl (proper_of_unexpected hlined (Nat.le_refl _)
            (Text.isBoundary_byteLength source) nofun)

end Parse

namespace Arena

open Abacus.Tree (Subtree)

variable {a : Arena} {t : Tree Place}

/-- If the stored tree fills all slots, the spans in the arena are those of the tree. -/
theorem Stores.ranged (h : a.Stores t) (hfull : ∀ slot < a.size, slot ∈ t.slots)
    (ht : t.Ranged Place.span source names) : a.Ranged source names := by
  have hplace {u : Tree Place} (hu : Subtree u t) :
      (placeAt a.nodes u.tag.slot).span = u.tag.span :=
    congrArg Place.span (h.holds.subtree hu).placeAt_eq
  constructor
  case proper =>
    intro slot hlt
    obtain ⟨u, hu, rfl⟩ := Tree.mem_slots_iff.mp (hfull slot hlt)
    have hproper := (hu.ranged ht).proper
    rw [hplace hu]
    exact ⟨hproper, hproper.stop.le⟩
  case param =>
    intro slot index hkind
    obtain ⟨u, hu, rfl, hu'⟩ := h.exists_subtree_of_kindAt? hfull hkind
    rw [hplace hu]
    cases u with
    | param tag i =>
      obtain rfl := Kind.param.inj hu'
      exact (hu.ranged ht).2
    | literal | negate | binary => cases hu'
  case negate =>
    intro slot operand hkind
    obtain ⟨u, hu, rfl, hu'⟩ := h.exists_subtree_of_kindAt? hfull hkind
    cases u with
    | negate tag o =>
      obtain rfl := Kind.negate.inj hu'
      have ho : Subtree o t := (Subtree.negate _ (.refl o)).trans hu
      rw [hplace hu, hplace ho]
      exact ⟨(hu.ordered h.wellPlaced.ordered).1, (hu.ranged ht).2.1⟩
    | literal | param | binary => cases hu'
  case binary =>
    intro slot op left right hkind
    obtain ⟨u, hu, rfl, hu'⟩ := h.exists_subtree_of_kindAt? hfull hkind
    cases u with
    | binary tag op' l r =>
      obtain ⟨rfl, rfl, rfl⟩ := Kind.binary.inj hu'
      have hl : Subtree l t := (Subtree.left _ _ _ (.refl l)).trans hu
      have hr : Subtree r t := (Subtree.right _ _ _ (.refl r)).trans hu
      obtain ⟨hleft, hright, -, -⟩ := hu.ordered h.wellPlaced.ordered
      obtain ⟨-, hstart, hstop, hle, -, -⟩ := hu.ranged ht
      rw [hplace hu, hplace hl, hplace hr]
      exact ⟨hleft, hright, hstart, hstop, hle⟩
    | literal | param | negate => cases hu'

/-- The arena of an accepted source stores a tree that fills all slots, with spans as
`Ranged` says. -/
theorem exists_ranged_of_parse {source : String} {maxDepth : Nat}
    (h : Arena.parse source names maxDepth = .ok a) :
    ∃ t : Tree Place, a.Stores t ∧ (∀ slot < a.size, slot ∈ t.slots) ∧
      t.Ranged Place.span source.toList names := by
  obtain ⟨t, ht, rfl⟩ := parse_eq_ok_iff.mp h
  refine ⟨_, stores_ofTree (params_of_parse ht), fun slot hlt => ?_,
    Tree.ranged_placed (Parse.ranged_of_ofScan (Tree.parse_eq_ok_iff.mp ht).2)⟩
  rw [size_ofTree] at hlt
  exact t.slots_placed_perm.mem_iff.mpr (List.mem_range.mpr hlt)

/-- The tree of an accepted source has nested spans. -/
theorem exists_nested_of_parse {source : String} {maxDepth : Nat}
    (h : Arena.parse source names maxDepth = .ok a) :
    ∃ t : Tree Place, a.Stores t ∧ t.Nested Place.span := by
  obtain ⟨t, ht, -, hranged⟩ := exists_ranged_of_parse h
  exact ⟨t, ht, hranged.nested⟩

/-- The spans in the arena of an accepted source are as `Ranged` says, and so is the span
of an error, unless the error is about the name of a parameter. -/
theorem ranges_of_parse (source : String) (names : List String) (maxDepth : Nat) :
    (∀ a, Arena.parse source names maxDepth = .ok a → a.Ranged source.toList names) ∧
      ∀ e, Arena.parse source names maxDepth = .error e → e.cause.argument = none →
        e.Ranged source.toList := by
  constructor
  · intro a ha
    obtain ⟨t, ht, hfull, hranged⟩ := exists_ranged_of_parse ha
    exact ht.ranged hfull hranged
  · intro e he hargument
    rcases Tree.parse_eq_error_iff.mp (parse_eq_error_iff.mp he) with
      ⟨cause, hfault, rfl⟩ | ⟨-, v, hv, rfl⟩
    · exact absurd hargument (Scope.argument_ne_none_of_fault? hfault)
    · rcases Parse.proper_of_ofScan hv with hproper | ⟨hending, rfl⟩
      · exact ⟨Nat.le_of_lt hproper.lt, hproper.stop.le, hproper.start, hproper.stop,
          fun heq => absurd heq (Nat.ne_of_lt hproper.lt)⟩
      · exact ⟨Nat.le_refl _, Nat.le_refl _, Text.isBoundary_byteLength _,
          Text.isBoundary_byteLength _, fun _ => ⟨rfl, rfl, hending⟩⟩

/-- Behind a comment with a letter of two bytes: a negated group with an operation behind
it, and a group that is not closed. -/
theorem ranges_of_parse_behind_comment :
    (∃ a, Arena.parse "# é\n-(ab+3)*ab" ["ab"] 1 = .ok a ∧
      a.Ranged "# é\n-(ab+3)*ab".toList ["ab"]) ∧
    ∃ e, Arena.parse "# é\n(1+ab" ["ab"] 1 = .error e ∧ e.cause.argument = none ∧
      e.span = ⟨5, 10⟩ ∧ e.Ranged "# é\n(1+ab".toList := by
  have hparse : Arena.parse "# é\n-(ab+3)*ab" ["ab"] 1 =
      .ok ⟨#[⟨.param 0, ⟨7, 9⟩⟩, ⟨.literal 3, ⟨10, 11⟩⟩, ⟨.binary .add 0 1, ⟨7, 11⟩⟩,
        ⟨.negate 2, ⟨5, 11⟩⟩, ⟨.param 0, ⟨13, 15⟩⟩, ⟨.binary .mul 3 4, ⟨5, 15⟩⟩], 1⟩ := by
    decide +kernel
  have herror : Arena.parse "# é\n(1+ab" ["ab"] 1 =
      .error ⟨.expectedCloseParen ⟨5, 6⟩ "end of input", "# é\n(1+ab", ⟨5, 10⟩⟩ := by
    decide +kernel
  exact ⟨⟨_, hparse, (ranges_of_parse _ _ _).1 _ hparse⟩, _, herror, rfl, rfl,
    (ranges_of_parse _ _ _).2 _ herror rfl⟩

end Arena

end Abacus
