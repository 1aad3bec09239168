import Abacus.Proofs.Placement
import Abacus.Proofs.Simplify.Rules

set_option autoImplicit false

/-!
# Rules stay in the places of a tree

A rule gives each new node a slot that the tree already had, below the node that uses it,
and drops the slots that it no longer needs.  So what a rule makes of a well-placed tree
fits in its places.
-/

namespace Abacus

namespace Simplify

open Abacus.Tree

/-- A node that takes over a wider span still encloses its operands. -/
theorem nested_withTag {place : Place} {u : Tree Place}
    (hwithin : u.tag.span.Within place.span) (h : u.Nested Place.span) :
    (u.withTag place).Nested Place.span := by
  cases u with
  | literal => trivial
  | param => trivial
  | negate p operand => exact ⟨h.1.trans hwithin, h.2⟩
  | binary p op left right => exact ⟨h.1.trans hwithin, h.2.1.trans hwithin, h.2.2⟩

/-- A subtree that takes over the place of the root fits in the places of the whole
tree. -/
theorem fitsIn_withTag {place : Place} {t u : Tree Place} (htag : t.tag = place)
    (hordered : u.Ordered) (hbelow : u.tag.slot < place.slot)
    (hcount : ∀ slot, u.slots.count slot + [place.slot].count slot ≤ t.slots.count slot)
    (hparams : ∀ index ∈ u.params, index ∈ t.params)
    (hnested : t.Nested Place.span → u.tag.span.Within place.span ∧ u.Nested Place.span) :
    t.FitsIn (u.withTag place) := by
  refine ⟨by rw [tag_withTag, htag], ?_, ?_, ?_, fun h => ?_⟩
  · cases u with
    | literal => trivial
    | param => trivial
    | negate p operand => exact ⟨Nat.lt_trans hordered.1 hbelow, hordered.2⟩
    | binary p op left right =>
      exact ⟨Nat.lt_trans hordered.1 hbelow, Nat.lt_trans hordered.2.1 hbelow,
        hordered.2.2⟩
  · intro slot
    have := hcount slot
    cases u <;>
      simp only [withTag, slots_literal, slots_param, slots_negate, slots_binary,
        List.count_append] at this ⊢ <;>
      omega
  · rw [params_withTag]
    exact hparams
  · exact nested_withTag (hnested h).1 (hnested h).2

/-- A literal in the place of the root fits in the places of the tree. -/
theorem fitsIn_literal {place : Place} {t : Tree Place} (htag : t.tag = place)
    (v : Int64) :
    t.FitsIn (.literal place v) := by
  refine ⟨htag.symm, trivial, ?_, fun index h => absurd h List.not_mem_nil,
    fun _ => trivial⟩
  intro slot
  obtain ⟨below, h⟩ := t.entries_eq_append
  simp [slots, h, htag, entries]

/-- Every outcome of a rule fits in the places of the tree. -/
theorem Rewrites.fitsIn {t : Tree Place} {s : Step} (h : Rewrites t s)
    (hwell : t.WellPlaced) :
    s.Leads t.FitsIn := by
  have hordered := hwell.ordered
  cases h with
  | negateLiteral place p v => exact fitsIn_literal rfl _
  | fold place p q op l r v hop => exact fitsIn_literal rfl _
  | zeroTimes place p right => exact fitsIn_literal rfl _
  | timesZero place q left => exact fitsIn_literal rfl _
  | zeroOver place p right => exact fitsIn_literal rfl _
  | selfMinus place p q i => exact fitsIn_literal rfl _
  | selfOver place p q i => exact fitsIn_literal rfl _
  | doubleNegation place p t =>
    obtain ⟨hp, ht, hinner⟩ := hordered
    refine fitsIn_withTag rfl hinner (Nat.lt_trans ht hp) ?_ (fun _ h => h)
      fun hn => ⟨hn.2.1.trans hn.1, hn.2.2⟩
    intro slot
    simp only [slots_negate, List.count_append]
    omega
  | zeroPlus place p right =>
    obtain ⟨-, hr, -, hright⟩ := hordered
    refine fitsIn_withTag rfl hright hr ?_ (fun _ h => List.mem_append_right _ h)
      fun hn => ⟨hn.2.1, hn.2.2.2⟩
    intro slot
    simp only [slots_binary, List.count_append]
    omega
  | oneTimes place p right =>
    obtain ⟨-, hr, -, hright⟩ := hordered
    refine fitsIn_withTag rfl hright hr ?_ (fun _ h => List.mem_append_right _ h)
      fun hn => ⟨hn.2.1, hn.2.2.2⟩
    intro slot
    simp only [slots_binary, List.count_append]
    omega
  | plusZero place q op left hadd =>
    obtain ⟨hl, -, hleft, -⟩ := hordered
    refine fitsIn_withTag rfl hleft hl ?_ (fun _ h => List.mem_append_left _ h)
      fun hn => ⟨hn.1, hn.2.2.1⟩
    intro slot
    simp only [slots_binary, List.count_append]
    omega
  | timesOne place q left =>
    obtain ⟨hl, -, hleft, -⟩ := hordered
    refine fitsIn_withTag rfl hleft hl ?_ (fun _ h => List.mem_append_left _ h)
      fun hn => ⟨hn.1, hn.2.2.1⟩
    intro slot
    simp only [slots_binary, List.count_append]
    omega
  | zeroMinus place p right =>
    obtain ⟨-, hr, -, hright⟩ := hordered
    refine ⟨rfl, ⟨hr, hright⟩, ?_, fun _ h => List.mem_append_right _ h,
      fun hn => ⟨hn.2.1, hn.2.2.2⟩⟩
    intro slot
    simp only [slots_negate, slots_binary, List.count_append]
    omega
  | mergeRightInner place p old q op inner l a v b hchain hop =>
    obtain ⟨hp, hold, -, -, hb, -, hbo⟩ := hordered
    refine ⟨rfl, ⟨hp, Nat.lt_trans hb hold, trivial, hbo⟩, ?_, fun _ h => h, ?_⟩
    · intro slot
      simp only [slots_literal, slots_binary, List.count_append]
      omega
    · rintro ⟨hp, hold, -, -, hb, -, hbn⟩
      exact ⟨hp, hb.trans hold, trivial, hbn⟩
  | mergeRightOuter place p old q op inner l b v a hchain hop =>
    obtain ⟨hp, hold, -, ha, -, hao, -⟩ := hordered
    refine ⟨rfl, ⟨hp, Nat.lt_trans ha hold, trivial, hao⟩, ?_, ?_, ?_⟩
    · intro slot
      simp only [slots_literal, slots_binary, List.count_append]
      omega
    · intro index h
      simpa [params] using h
    · rintro ⟨hp, hold, -, ha, -, han, -⟩
      exact ⟨hp, ha.trans hold, trivial, han⟩
  | mergeLeftOuter place old q r op inner chain b c v a hchain hsame hop =>
    obtain ⟨hold, hr, ⟨ha, -, hao, -⟩, -⟩ := hordered
    refine ⟨rfl, ⟨Nat.lt_trans ha hold, hr, hao, trivial⟩, ?_, ?_, ?_⟩
    · intro slot
      simp only [slots_literal, slots_binary, List.count_append]
      omega
    · intro index h
      simpa [params] using h
    · rintro ⟨hold, hr, ⟨ha, -, han, -⟩, -⟩
      exact ⟨ha.trans hold, hr, han, trivial⟩
  | mergeLeftInner place old q r op inner a c v b hsame hop =>
    obtain ⟨hold, hr, ⟨-, hb, -, hbo⟩, -⟩ := hordered
    refine ⟨rfl, ⟨hr, Nat.lt_trans hb hold, trivial, hbo⟩, ?_, ?_, ?_⟩
    · intro slot
      simp only [slots_literal, slots_binary, List.count_append]
      omega
    · intro index h
      simpa [params] using h
    · rintro ⟨hold, hr, ⟨-, hb, -, hbn⟩, -⟩
      exact ⟨hr, hb.trans hold, trivial, hbn⟩
  | rotate place old op inner left c d hsame hslot =>
    obtain ⟨-, hold, hleft, hc, hd, hco, hdo⟩ := hordered
    refine ⟨rfl, ⟨hold, Nat.lt_trans hd hold, ⟨hslot, hc, hleft, hco⟩, hdo⟩, ?_, ?_, ?_⟩
    · intro slot
      simp only [slots_binary, List.count_append]
      omega
    · intro index h
      simpa [params] using h
    · rintro ⟨hl, hold, hln, hc, hd, hcn, hdn⟩
      exact ⟨Span.combine_within hl (hc.trans hold), hd.trans hold,
        ⟨Span.within_combine_left _ _, Span.within_combine_right _ _, hln, hcn⟩, hdn⟩
  | surface place old q op inner a right c hsame hright hslot =>
    obtain ⟨hold, -, ⟨ha, hq, hao, -⟩, hro⟩ := hordered
    refine ⟨rfl, ⟨hold, Nat.lt_trans hq hold, ⟨ha, hslot, hao, hro⟩, trivial⟩, ?_, ?_, ?_⟩
    · intro slot
      simp only [slots_literal, slots_binary, List.count_append]
      omega
    · intro index h
      simpa [params] using h
    · rintro ⟨hold, hr, ⟨ha, hq, han, -⟩, hrn⟩
      exact ⟨Span.combine_within (ha.trans hold) hr, hq.trans hold,
        ⟨Span.within_combine_left _ _, Span.within_combine_right _ _, han, hrn⟩, trivial⟩
  | surfaceParam place old q leaf op inner a c i hsame hslot =>
    obtain ⟨hold, hleaf, ⟨ha, hq, hao, -⟩, -⟩ := hordered
    -- The parameter and the old operation are in different slots, because no slot is
    -- shared.
    have hne : old.slot ≠ leaf.slot := by
      obtain ⟨-, -, hdisjoint⟩ := hwell.apart
      exact fun heq => hdisjoint (slot_mem_slots _) (List.mem_singleton.mpr heq)
    have hlt : old.slot < leaf.slot := Nat.lt_of_le_of_ne hslot hne
    refine ⟨rfl, ⟨hleaf, Nat.lt_trans hq hold, ⟨Nat.lt_trans ha hlt, hlt, hao, trivial⟩,
      trivial⟩, ?_, ?_, ?_⟩
    · intro slot
      simp only [slots_literal, slots_param, slots_binary, List.count_append]
      omega
    · intro index h
      simpa [params] using h
    · rintro ⟨hold, hr, ⟨ha, hq, han, -⟩, -⟩
      exact ⟨Span.combine_within (ha.trans hold) hr, hq.trans hold,
        ⟨Span.within_combine_left _ _, Span.within_combine_right _ _, han, trivial⟩,
        trivial⟩

/-- What a step makes of a well-placed tree fits in its places. -/
theorem step_fitsIn {t : Tree Place} (h : t.WellPlaced) : (step t).Leads t.FitsIn :=
  step_of_rewrites trivial fun _ hrewrites => hrewrites.fitsIn h

end Simplify

end Abacus
