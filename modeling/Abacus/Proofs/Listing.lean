import Abacus.Expression
import Abacus.Program.Listing
import Abacus.Proofs.Lines
import Abacus.Proofs.Machine
import Abacus.Proofs.Spelling

set_option autoImplicit false

/-!
# Listings are faithful

A listing reads a program word by word and has to find out again where its instructions
begin.  Operand words may look like opcodes, but in a compiled program every instruction
is taken as a whole, so that no operand is ever looked at as an opcode.  Without names
nothing is lost either: the words of a program can be told from its listing.

Main statements:

* `Program.listingLines_encodeAll`: the lines for encoded instructions are those of the
  instructions.
* `Program.showInstruction_inj`, `Program.instructionLines_inj`: lines without names
  determine what they show.
* `Arena.listed`: what the listing of a compiled program shows, and that it determines the
  program.
-/

namespace Abacus

/-! ## Lines of a text -/

namespace Text

/-- Lines that are ended by line feeds are found again, with the empty one behind the last
line feed. -/
theorem lines_join {list : List String} (h : ∀ line ∈ list, '\n' ∉ line.toList) :
    lines (String.join (list.map (· ++ "\n"))).toList =
      list.map String.toList ++ [[]] := by
  induction list with
  | nil => rfl
  | cons line list ih =>
    obtain ⟨hline, hlist⟩ := List.forall_mem_cons.mp h
    have htext : (String.join ((line :: list).map (· ++ "\n"))).toList =
        line.toList ++ '\n' :: (String.join (list.map (· ++ "\n"))).toList := by
      simp [String.join_cons, String.toList_append]
    rw [htext, lines_append_lineFeed hline, ih hlist]
    rfl

theorem decimal_inj {m n : Nat} (h : decimal m = decimal n) : m = n := by
  have hdigits : digits m = digits n := String.ofList_injective h
  rw [← digitsValue_digits m, hdigits, digitsValue_digits]

theorem signedDecimal_inj {v w : Int64} (h : signedDecimal v = signedDecimal w) :
    v = w := by
  have hdigits : signedDigits v = signedDigits w := String.ofList_injective h
  have hread := readSigned?_signedDigits v
  rw [hdigits, readSigned?_signedDigits] at hread
  exact (Option.some.inj hread).symm

end Text

theorem Opcode.mnemonic_inj {a b : Opcode} (h : a.mnemonic = b.mnemonic) : a = b := by
  have hfind (op : Opcode) : all.find? (·.mnemonic == op.mnemonic) = some op := by
    cases op <;> decide
  have ha := hfind a
  rw [h, hfind b] at ha
  exact (Option.some.inj ha).symm

theorem Instruction.length_encode (i : Instruction) :
    i.encode.length = 1 + i.opcode.operandWords := by
  cases i with
  | operator op => cases op <;> rfl
  | negate | pushConst | pushParam | ret => rfl

namespace Program

open Instruction (encodeAll)
open Text (signedDecimal)

variable {names : List String} {offset : Nat}

/-! ## The lines for instructions -/

/-- The lines for instructions of which the first begins at an offset. -/
def instructionLines (names : List String) (offset : Nat) : List Instruction → List String
  | [] => []
  | i :: rest =>
    listingLine offset (showInstruction names i)
      :: instructionLines names (offset + i.encode.length) rest

theorem listingLines_of_finished {words : List Word} (h : fetch words = .finished) :
    listingLines names offset words = [] := by
  rw [listingLines]
  split <;> simp_all

theorem listingLines_of_instruction {words rest : List Word} {i : Instruction}
    (h : fetch words = .instruction i rest) :
    listingLines names offset words = listingLine offset (showInstruction names i)
      :: listingLines names (offset + 1 + i.opcode.operandWords) rest := by
  rw [listingLines]
  split <;> simp_all

/-- A listing does not lose step, whatever the operand words are. -/
theorem listingLines_encodeAll (names : List String) (offset : Nat)
    (list : List Instruction) :
    listingLines names offset (encodeAll list) = instructionLines names offset list := by
  induction list generalizing offset with
  | nil => exact listingLines_of_finished rfl
  | cons i rest ih =>
    have hfetch : fetch (encodeAll (i :: rest)) = .instruction i (encodeAll rest) :=
      fetch_encode i (encodeAll rest)
    rw [listingLines_of_instruction hfetch, ih, instructionLines, i.length_encode,
      Nat.add_assoc]

theorem length_instructionLines (names : List String) (offset : Nat)
    (list : List Instruction) :
    (instructionLines names offset list).length = list.length := by
  induction list generalizing offset with
  | nil => rfl
  | cons i rest ih => rw [instructionLines, List.length_cons, ih, List.length_cons]

theorem instructionLines_append (names : List String) (offset : Nat)
    (first more : List Instruction) :
    instructionLines names offset (first ++ more) = instructionLines names offset first ++
      instructionLines names (offset + (encodeAll first).length) more := by
  induction first generalizing offset with
  | nil => rfl
  | cons i rest ih =>
    have hlength :
        (encodeAll (i :: rest)).length = i.encode.length + (encodeAll rest).length :=
      List.length_append
    rw [List.cons_append, instructionLines, ih, hlength, instructionLines,
      List.cons_append, Nat.add_assoc]

/-! ## What a line is written with -/

/-- The signs that a listing is written with, besides letters and digits. -/
def punctuation : List Char := [' ', '-', '$', ':']

/-- A text of letters, digits, these signs and the characters of names.  Line feeds and
angle brackets may stand in it only if they stand in a name. -/
def Plain (names : List String) (s : String) : Prop :=
  ∀ c ∈ s.toList, c.isAlphanum = true ∨ c ∈ punctuation ∨ ∃ name ∈ names, c ∈ name.toList

theorem Plain.append {s t : String} (hs : Plain names s) (ht : Plain names t) :
    Plain names (s ++ t) := by
  rw [Plain, String.toList_append]
  exact List.forall_mem_append.mpr ⟨hs, ht⟩

theorem Plain.not_mem {s : String} {c : Char} (h : Plain names s)
    (hc : c.isAlphanum = false ∧ c ∉ punctuation)
    (hnames : ∀ name ∈ names, c ∉ name.toList) :
    c ∉ s.toList := by
  intro hmem
  rcases h c hmem with halnum | hsign | ⟨name, hname, hin⟩
  · rw [hc.1] at halnum
    cases halnum
  · exact hc.2 hsign
  · exact hnames name hname hin

/-- The fixed parts of a listing are plain. -/
theorem plain_of_all {s : String}
    (h : s.toList.all (fun c => c.isAlphanum || punctuation.contains c) = true) :
    Plain names s := by
  intro c hc
  rcases (Bool.or_eq_true _ _).mp (List.all_eq_true.mp h c hc) with halnum | hsign
  · exact Or.inl halnum
  · exact Or.inr (Or.inl (List.contains_iff_mem.mp hsign))

theorem plain_ofList_digits (n : Nat) : Plain names (String.ofList (Text.digits n)) := by
  rw [Plain, String.toList_ofList]
  exact fun c hc => Or.inl (by simp [Char.isAlphanum, Text.isDigit_of_mem_digits hc])

theorem plain_signedDecimal (v : Int64) : Plain names (signedDecimal v) := by
  unfold signedDecimal Text.signedDigits
  split
  · rw [← List.singleton_append, String.ofList_append]
    exact (plain_of_all (by decide)).append (plain_ofList_digits _)
  · exact plain_ofList_digits _

theorem plain_zeroPadded (width n : Nat) : Plain names (Text.zeroPadded width n) := by
  rw [Text.zeroPadded, List.leftpad, String.ofList_append]
  refine Plain.append (fun c hc => ?_) (plain_ofList_digits n)
  rw [String.toList_ofList] at hc
  obtain rfl := List.eq_of_mem_replicate hc
  exact Or.inl rfl

theorem plain_operandName (index : Word) : Plain names (operandName names index) := by
  have hdollar : Plain names "$" := plain_of_all (by decide)
  unfold operandName paramName
  split
  · exact hdollar.append (plain_signedDecimal index)
  · split
    · rename_i name hname
      exact fun c hc => Or.inr (Or.inr ⟨name, List.mem_of_getElem? hname, hc⟩)
    · exact hdollar.append (plain_ofList_digits _)

theorem plain_showInstruction (i : Instruction) :
    Plain names (showInstruction names i) := by
  have hmnemonic (op : Opcode) : Plain names op.mnemonic :=
    plain_of_all (by cases op <;> decide)
  have hblank : Plain names " " := plain_of_all (by decide)
  cases i with
  | pushConst value =>
    exact ((hmnemonic _).append hblank).append (plain_signedDecimal value)
  | pushParam index =>
    exact ((hmnemonic _).append hblank).append (plain_operandName index)
  | operator | negate | ret => exact hmnemonic _

theorem plain_of_mem_instructionLines {list : List Instruction} {line : String}
    (h : line ∈ instructionLines names offset list) : Plain names line := by
  have hblanks : Plain names "  " := plain_of_all (by decide)
  induction list generalizing offset with
  | nil => cases h
  | cons i rest ih =>
    rcases List.mem_cons.mp h with rfl | h
    · exact ((plain_zeroPadded 4 offset).append hblanks).append (plain_showInstruction i)
    · exact ih h

/-- The first line of a listing. -/
def header (p : Program) : String := "stack size: " ++ Text.decimal p.maxStackDepth

theorem plain_header (p : Program) : Plain names p.header := by
  have htitle : Plain names "stack size: " := plain_of_all (by decide)
  exact htitle.append (plain_ofList_digits _)

/-! ## Lines written out -/

/-- A line of a listing: the offset, with leading zeros up to four digits, two blanks, and
what is shown. -/
def writtenLine (offset : Nat) (shown : List Char) : String :=
  .ofList (List.replicate (4 - (Text.digits offset).length) '0' ++ Text.digits offset ++
    [' ', ' '] ++ shown)

/-- What is shown of an instruction: its name, and its operand if it has one. -/
def written (names : List String) : Instruction → List Char
  | .operator .add => "Add".toList
  | .operator .sub => "Sub".toList
  | .operator .mul => "Mul".toList
  | .operator .div => "Div".toList
  | .negate => "Negate".toList
  | .pushConst value => "PushConst".toList ++ ' ' :: Text.signedDigits value
  | .pushParam index => "PushParam".toList ++ ' ' :: (operandName names index).toList
  | .ret => "Return".toList

theorem toList_showInstruction (names : List String) (i : Instruction) :
    (showInstruction names i).toList = written names i := by
  have hblank : " ".toList = [' '] := by decide
  cases i with
  | operator op => cases op <;> rfl
  | negate | ret => rfl
  | pushConst value =>
    rw [showInstruction, String.toList_append, String.toList_append, hblank,
      List.append_assoc, signedDecimal, String.toList_ofList]
    rfl
  | pushParam index =>
    rw [showInstruction, String.toList_append, String.toList_append, hblank,
      List.append_assoc]
    rfl

theorem listingLine_eq (names : List String) (offset : Nat) (i : Instruction) :
    listingLine offset (showInstruction names i) =
      writtenLine offset (written names i) := by
  rw [← String.toList_inj]
  simp [listingLine, Text.zeroPadded, List.leftpad, writtenLine, toList_showInstruction]

/-! ## Lines without names -/

theorem operandName_nil (index : Word) :
    operandName [] index = "$" ++ signedDecimal index := by
  unfold operandName
  split
  · rfl
  · rename_i h
    have hnat : index.toInt.toNat = index.toInt.natAbs := by omega
    simp only [paramName, List.getElem?_nil, hnat, Text.decimal, signedDecimal,
      Text.signedDigits, if_neg h]

/-- What stands behind the mnemonic of an instruction, if it has an operand. -/
def operandText (names : List String) : Instruction → String
  | .pushConst value => " " ++ signedDecimal value
  | .pushParam index => " " ++ operandName names index
  | _ => ""

theorem showInstruction_eq (names : List String) (i : Instruction) :
    showInstruction names i = i.opcode.mnemonic ++ operandText names i := by
  cases i with
  | pushConst | pushParam => exact String.append_assoc
  | operator | negate | ret => exact String.append_empty.symm

/-- The mnemonic ends in front of the first blank. -/
theorem takeWhile_showInstruction (names : List String) (i : Instruction) :
    (showInstruction names i).toList.takeWhile (· != ' ') = i.opcode.mnemonic.toList := by
  have hrun (op : Opcode) : op.mnemonic.toList.all (· != ' ') = true := by
    cases op <;> decide
  have hrest : ∀ c ∈ (operandText names i).toList.head?, (c != ' ') = false := by
    cases i with
    | pushConst | pushParam => simp [operandText, String.toList_append]
    | operator | negate | ret => simp [operandText]
  rw [showInstruction_eq, String.toList_append]
  exact (Scan.takeWhile_run (List.all_eq_true.mp (hrun i.opcode)) hrest).1

/-- An instruction is determined by its opcode and its operand. -/
theorem eq_of_operandText {i j : Instruction} (hop : i.opcode = j.opcode)
    (hoperand : operandText [] i = operandText [] j) : i = j := by
  rcases i with op | _ | value | index | _ <;> rcases j with op' | _ | value' | index' | _
  case pushConst.pushConst =>
    rw [operandText, operandText, String.append_right_inj] at hoperand
    rw [Text.signedDecimal_inj hoperand]
  case pushParam.pushParam =>
    rw [operandText, operandText, operandName_nil, operandName_nil,
      String.append_right_inj, String.append_right_inj] at hoperand
    rw [Text.signedDecimal_inj hoperand]
  case operator.operator => cases op <;> cases op' <;> first | rfl | cases hop
  case negate.negate | ret.ret => rfl
  case operator.negate | operator.pushConst | operator.pushParam | operator.ret =>
    cases op <;> cases hop
  case negate.operator | pushConst.operator | pushParam.operator | ret.operator =>
    cases op' <;> cases hop
  all_goals cases hop

/-- Without names, an instruction can be told from how it is shown. -/
theorem showInstruction_inj {i j : Instruction}
    (h : showInstruction [] i = showInstruction [] j) :
    i = j := by
  have hmnemonic : i.opcode.mnemonic = j.opcode.mnemonic := by
    rw [← String.toList_inj, ← takeWhile_showInstruction [] i, h,
      takeWhile_showInstruction]
  have hop := Opcode.mnemonic_inj hmnemonic
  rw [showInstruction_eq, showInstruction_eq, hop, String.append_right_inj] at h
  exact eq_of_operandText hop h

/-- Without names, instructions can be told from their lines. -/
theorem instructionLines_inj {first second : List Instruction}
    (h : instructionLines [] offset first = instructionLines [] offset second) :
    first = second := by
  induction first generalizing offset second with
  | nil =>
    cases second with
    | nil => rfl
    | cons j more => cases h
  | cons i rest ih =>
    cases second with
    | nil => cases h
    | cons j more =>
      obtain ⟨hline, hlines⟩ := List.cons.inj h
      rw [listingLine, listingLine, String.append_right_inj] at hline
      obtain rfl := showInstruction_inj hline
      rw [ih hlines]

/-! ## Whole listings -/

/-- The listing of a program for which the given instructions were emitted consists of
these lines. -/
structure Lists (p : Program) (names : List String) (emitted : List Instruction)
    (lines : List String) : Prop where
  /-- The lines stand behind the header, each with a line feed at its end. -/
  text : p.listing names = String.join ((p.header :: lines).map (· ++ "\n"))
  /-- There is one line for each instruction. -/
  length : lines.length = emitted.length
  /-- It shows the instruction and the offset in the code at which its words were
  emitted. -/
  line : ∀ before i after, emitted = before ++ i :: after →
    p.code = encodeAll before ++ (i.encode ++ encodeAll after) ∧
      lines[before.length]? =
        some (writtenLine (encodeAll before).length (written names i))
  /-- The last line is that of the return. -/
  last : ∃ offset, lines.getLast? = some (writtenLine offset "Return".toList)
  /-- There are no other line feeds, unless in a name. -/
  separate : (∀ name ∈ names, '\n' ∉ name.toList) →
    Text.lines (p.listing names).toList = (p.header :: lines).map String.toList ++ [[]]
  /-- No word is shown as an invalid opcode and no operand as missing: there are no angle
  brackets, unless in a name. -/
  genuine : (∀ name ∈ names, '<' ∉ name.toList) → '<' ∉ (p.listing names).toList

/-- The listing of a program whose code is that of instructions with a return at the
end. -/
theorem lists_of_code {p : Program} {body : List Instruction}
    (hcode : p.code = encodeAll (body ++ [.ret])) (names : List String) :
    p.Lists names (body ++ [.ret]) (instructionLines names 0 (body ++ [.ret])) := by
  have htext : p.listing names = String.join
      ((p.header :: instructionLines names 0 (body ++ [.ret])).map (· ++ "\n")) := by
    rw [← listingLines_encodeAll, ← hcode]
    rfl
  have hplain : ∀ line ∈ p.header :: instructionLines names 0 (body ++ [.ret]),
      Plain names line :=
    List.forall_mem_cons.mpr ⟨p.plain_header, fun _ => plain_of_mem_instructionLines⟩
  refine ⟨htext, length_instructionLines _ _ _, fun before i after h => ⟨?_, ?_⟩, ?_,
    fun hnames => ?_, fun hnames hmem => ?_⟩
  · rw [hcode, h, Instruction.encodeAll_append]
    rfl
  · rw [h, instructionLines_append, ← length_instructionLines names 0 before,
      List.getElem?_append_right (Nat.le_refl _), Nat.sub_self, Nat.zero_add,
      ← listingLine_eq]
    rfl
  · rw [instructionLines_append, List.getLast?_append]
    exact ⟨_, congrArg some (listingLine_eq names _ .ret)⟩
  · rw [htext]
    exact Text.lines_join fun line hline => (hplain line hline).not_mem (by decide) hnames
  · rw [htext, String.toList_join, List.mem_flatMap] at hmem
    obtain ⟨_, hrow, hmem⟩ := hmem
    obtain ⟨line, hline, rfl⟩ := List.mem_map.mp hrow
    rw [String.toList_append] at hmem
    rcases List.mem_append.mp hmem with hmem | hmem
    · exact (hplain line hline).not_mem (by decide) hnames hmem
    · exact absurd hmem (by decide)

/-- Without names, a program of instructions can be told from its listing. -/
theorem words_eq_of_listing {p q : Program} {first second : List Instruction}
    (hp : p.code = encodeAll (first ++ [.ret]))
    (hq : q.code = encodeAll (second ++ [.ret])) (h : p.listing [] = q.listing []) :
    p.words = q.words := by
  have hlines := congrArg (Text.lines ∘ String.toList) h
  simp only [Function.comp_apply, (lists_of_code hp []).separate nofun,
    (lists_of_code hq []).separate nofun] at hlines
  have hequal := (List.map_inj_right fun _ _ => String.toList_inj.mp).mp
    (List.append_cancel_right hlines)
  obtain ⟨hheader, hmore⟩ := List.cons.inj hequal
  have hdepth : p.maxStackDepth = q.maxStackDepth :=
    Text.decimal_inj ((String.append_right_inj "stack size: ").mp hheader)
  rw [words, words, hdepth, hp, hq, instructionLines_inj hmore]

end Program

namespace Arena

/-- What the listing of a compiled expression shows. -/
structure Listed (a : Arena) : Prop where
  /-- A line for each of the instructions. -/
  lists : ∀ names, ∃ lines, a.compile.Lists names a.instructions lines
  /-- Without names, the words of the program can be told from it. -/
  lossless : ∀ b : Arena, a.compile.listing [] = b.compile.listing [] →
    a.compile.words = b.compile.words

/-- Whatever an arena is compiled to is listed instruction by instruction, and nothing is
lost.  This holds for all arenas, so for those of accepted sources, however often they are
simplified. -/
theorem listed (a : Arena) : a.Listed where
  lists names := ⟨_, Program.lists_of_code rfl names⟩
  lossless _ h := Program.words_eq_of_listing rfl rfl h

/-- The operand `6` is the word of `PushParam`, and is not taken for one. -/
example :
    ((Arena.parse "6-x" ["x"] 0).map fun a => (a.compile.code, a.compile.listing [])) =
    .ok ([5, 6, 6, 0, 1, 7],
      "stack size: 2\n0000  PushConst 6\n0002  PushParam $0\n" ++
        "0004  Sub\n0005  Return\n") := by
  decide +kernel

end Arena

end Abacus
