import Mathlib.Data.Nat.Digits.Defs
import Mathlib.Data.Nat.Digits.Lemmas
import SimpleVm.Assembler.Literals
import SimpleVm.Assembler.ParserRun
import SimpleVm.Assembler.SourceText

/-!
# Sources and their texts

A text that spells the tokens of a source is scanned and parsed to that source,
whatever the spelling is. Printing is one way to spell a source, so every
source whose names, strings and numbers can be written has a text.
-/

namespace SimpleVm.Syntax

open Scanner

/-! ## Any spelling -/

/-- The parser run on any text of a source defines what the source defines. -/
theorem assembles {strtof : CString → UInt32} {ts : List Token} {source : List Instruction}
    {text : List UInt8} (h : Derives ts source) (htext : Spelled strtof ts text) :
    parse (tokens strtof text) = some source ∧
      ∀ env strg st, Parser.yyparse env strg (tokens strtof text) st =
        (fun st => (0, st)) <$>
          Parser.instructionList env st (source.map (Parser.ofInstruction strg)) := by
  rw [htext.tokens_eq]
  exact ⟨parse_of_derives h, fun env strg st => Parser.yyparse_accepts h st⟩

theorem endsWord_cons {x : UInt8} (hx : inWord x = false) (hpoint : x ≠ 46)
    (rest : List UInt8) : EndsWord (x :: rest) := by
  intro b hb
  obtain rfl := Option.some.inj hb
  exact ⟨hx, hpoint⟩

/-- `push r1`, in upper case, with a zero and a comment. -/
theorem assembles_push :
    parse (tokens (fun _ => 0) (bytesOf "PUSH r01//\n")) =
        some [.assembler (.push (.mode2 (.mode1 (.register 0))))] ∧
      ∀ env strg st, Parser.yyparse env strg (tokens (fun _ => 0) (bytesOf "PUSH r01//\n")) st =
        (fun st => (0, st)) <$>
          Parser.instructionList env st
            ([.assembler (.push (.mode2 (.mode1 (.register 0))))].map
              (Parser.ofInstruction strg)) := by
  have hpush : Spells (fun _ => 0) (bytesOf "PUSH") (.keyword .PUSH) (bytesOf " r01//\n") :=
    .reserved (r := ⟨["push"], .keyword .PUSH⟩) (s := "push")
      (by simp [reservedWords, keywordTable]) (by decide) rfl
      (endsWord_cons rfl (by decide) _)
  have hregister : Spells (fun _ => 0) (bytesOf "r01") (.register 1) (bytesOf "//\n") :=
    .reserved (r := registerWord 1) (s := "r01")
      (List.mem_append_right _ (List.mem_append_left _ (List.mem_map_of_mem (by decide))))
      (by decide) rfl
      (endsWord_cons rfl (by decide) _)
  have hcomment : Filler (bytesOf "//\n") := .comment (.line [] (by decide)) .nil
  have htext : Spelled (fun _ => 0) [.keyword .PUSH, .register 1] (bytesOf "PUSH r01//\n") :=
    .cons (g := []) .nil hpush (.cons (.space (b := 32) rfl .nil) hregister (.nil hcomment))
  exact assembles ⟨List.cons_ne_nil _ _, List.forall_mem_singleton.mpr trivial, rfl⟩ htext

/-! ## Printing -/

def digitChar (d : ℕ) : UInt8 := UInt8.ofNat (if d < 10 then 48 + d else 87 + d)

/-- The digits of a number, of which zero has one. -/
def printNat (base n : ℕ) : List UInt8 :=
  if n = 0 then [48] else ((Nat.digits base n).map digitChar).reverse

def printInt (z : ℤ) : List UInt8 :=
  if z < 0 then 45 :: printNat 10 z.natAbs else printNat 10 z.natAbs

/-- The first spelling of a reserved word. -/
def printReserved (t : Token) : List UInt8 :=
  ((reservedWords.find? fun r => r.token = t).bind fun r => r.spellings.head?).elim [] bytesOf

/-- One way to write a token, given one for the floating point numbers. -/
def printToken (float : UInt32 → List UInt8) : Token → List UInt8
  | .punct c => [c]
  | .intLiteral ival => printInt ival.toInt
  | .uintLiteral uval => 48 :: 120 :: printNat 16 uval.toNat
  | .floatLiteral fval => float fval
  | .name strg => strg.bytes
  | .strgLiteral strg => 34 :: (strg.bytes ++ [34])
  | t => printReserved t

/-- The tokens with a space behind each. -/
def print (float : UInt32 → List UInt8) (source : List Instruction) : List UInt8 :=
  (fringe source).flatMap fun t => printToken float t ++ [32]

/-! ## Digits -/

theorem digitValue_digitChar {d : ℕ} (hd : d < 16) : digitValue (digitChar d) = d := by
  have hall : ∀ d < 16, digitValue (digitChar d) = d := by decide
  exact hall d hd

theorem number_printNat {base : ℕ} (hbase : 2 ≤ base) (hle : base ≤ 16) (n : ℕ) :
    number base (printNat base n) = n := by
  rw [printNat]
  split
  · next hn =>
      subst hn
      simp [number, digitValue]
  · rw [number, List.reverse_reverse, List.map_map]
    have hvalues : (Nat.digits base n).map (digitValue ∘ digitChar) = Nat.digits base n := by
      conv_rhs => rw [← List.map_id (Nat.digits base n)]
      apply List.map_congr_left
      intro d hd
      exact digitValue_digitChar ((Nat.digits_lt_base hbase hd).trans_le hle)
    rw [hvalues, Nat.ofDigits_digits]

theorem printNat_decimal (n : ℕ) : Decimal (printNat 10 n) := by
  rw [printNat]
  split
  · exact .zero
  · next hn =>
      have hne : Nat.digits 10 n ≠ [] := Nat.digits_ne_nil_iff_ne_zero.mpr hn
      have hlast := Nat.getLast_digit_ne_zero 10 hn
      have hlt : ∀ d ∈ Nat.digits 10 n, d < 10 := fun d hd => Nat.digits_lt_base (by omega) hd
      have hchar : ∀ d < 10, range 48 57 (digitChar d) = true ∧
          (d ≠ 0 → range 49 57 (digitChar d) = true) := by decide
      have hsplit := List.dropLast_append_getLast hne
      generalize (Nat.digits 10 n).getLast hne = last at hlast hsplit
      rw [← hsplit] at hlt ⊢
      rw [List.map_append, List.map_singleton, List.reverse_concat]
      refine .nonzero ((hchar last (hlt last (by simp))).2 hlast) ?_
      intro b hb
      rw [List.mem_reverse, List.mem_map] at hb
      obtain ⟨d, hd, rfl⟩ := hb
      exact (hchar d (hlt d (List.mem_append_left _ hd))).1

theorem printNat_hex (n : ℕ) :
    printNat 16 n ≠ [] ∧ ∀ b ∈ printNat 16 n, isHexDigit b = true := by
  rw [printNat]
  split
  · exact ⟨by simp, List.forall_mem_singleton.mpr rfl⟩
  · next hn =>
      have hne : Nat.digits 16 n ≠ [] := Nat.digits_ne_nil_iff_ne_zero.mpr hn
      refine ⟨by simp [hne], ?_⟩
      intro b hb
      rw [List.mem_reverse, List.mem_map] at hb
      obtain ⟨d, hd, rfl⟩ := hb
      have hchar : ∀ d < 16, isHexDigit (digitChar d) = true := by decide
      exact hchar d (Nat.digits_lt_base (by omega) hd)

theorem printNat_ne_zero {n : ℕ} (hn : n ≠ 0) : printNat 10 n ≠ [48] := by
  intro h
  have hnumber : number 10 (printNat 10 n) = n := number_printNat (by omega) (by omega) n
  rw [h] at hnumber
  exact hn hnumber.symm

theorem decimalNumber_printInt (z : ℤ) : decimalNumber (printInt z) = z := by
  have hnumber : number 10 (printNat 10 z.natAbs) = z.natAbs :=
    number_printNat (by omega) (by omega) z.natAbs
  rw [printInt]
  split
  · rw [decimalNumber, hnumber]
    omega
  · obtain ⟨d, digits, htext, hd⟩ := (printNat_decimal z.natAbs).head
    rw [htext] at hnumber ⊢
    have hsign : d ≠ 45 := by
      rintro rfl
      cases hd
    rw [decimalNumber.eq_def]
    split
    · next heq =>
        obtain ⟨rfl, -⟩ := List.cons.inj heq
        exact absurd rfl hsign
    · rw [hnumber]
      omega

/-! ## Printed tokens -/

section Printed

variable {strtof : CString → UInt32} {float : UInt32 → List UInt8} {rest : List UInt8}

theorem spells_int (ival : Int32) (hrest : EndsWord rest) :
    Spells strtof (printInt ival.toInt) (.intLiteral ival) rest := by
  have hlow := Int32.le_toInt ival
  have hhigh := Int32.toInt_lt ival
  have hnumber := decimalNumber_printInt ival.toInt
  have hvalue : Int32.ofInt (strtolDecimal (printInt ival.toInt)) = ival := by
    rw [strtolDecimal_eq (by rw [hnumber]; exact hlow) (by rw [hnumber]; exact hhigh), hnumber]
    exact Int32.ofInt_toInt ival
  have hspells : ∀ sign, printInt ival.toInt = sign ++ printNat 10 ival.toInt.natAbs →
      (sign = [] ∨ sign = [45] ∧ printNat 10 ival.toInt.natAbs ≠ [48]) →
      Spells strtof (printInt ival.toInt) (.intLiteral ival) rest := by
    intro sign hprint hsign
    have hint : Spells strtof (sign ++ printNat 10 ival.toInt.natAbs) _ rest :=
      .int hsign (printNat_decimal ival.toInt.natAbs) hrest
    rwa [← hprint, hvalue] at hint
  by_cases hneg : ival.toInt < 0
  · exact hspells [45] (if_pos hneg) (.inr ⟨rfl, printNat_ne_zero (by omega)⟩)
  · exact hspells [] (if_neg hneg) (.inl rfl)

theorem spells_uint (uval : UInt32) (hrest : EndsWord rest) :
    Spells strtof (48 :: 120 :: printNat 16 uval.toNat) (.uintLiteral uval) rest := by
  obtain ⟨hne, hdigits⟩ := printNat_hex uval.toNat
  have hvalue : UInt32.ofNat (strtolDigits 16 (printNat 16 uval.toNat)).toNat = uval := by
    have hlt := uval.toNat_lt
    have hmin : (min (2 ^ 63 - 1) (uval.toNat : ℤ)).toNat = uval.toNat := by omega
    rw [strtolDigits_eq, number_printNat (by omega) (by omega), hmin]
    exact UInt32.ofNat_toNat
  have huint : Spells strtof (48 :: 120 :: printNat 16 uval.toNat) _ rest :=
    .uint (.inl rfl) hne hdigits hrest
  rwa [hvalue] at huint

theorem spells_reserved {t : Token} (h : ∃ r ∈ reservedWords, r.token = t)
    (hrest : EndsWord rest) : Spells strtof (printReserved t) t rest := by
  obtain ⟨r, hr, htoken⟩ := h
  obtain ⟨first, hfirst⟩ : ∃ first, reservedWords.find? (fun r => r.token = t) = some first := by
    apply Option.isSome_iff_exists.mp
    rw [List.find?_isSome]
    exact ⟨r, hr, decide_eq_true htoken⟩
  have hmem := List.mem_of_find?_eq_some hfirst
  have hsame : first.token = t := by
    have hfound := List.find?_some hfirst
    simpa using hfound
  have hproper := reservedWords_proper first hmem
  obtain ⟨s, more, hspellings⟩ : ∃ s more, first.spellings = s :: more := by
    apply List.exists_cons_of_ne_nil
    intro hnil
    rw [ReservedWord.IsProper, hnil] at hproper
    simp at hproper
  have hs : s ∈ first.spellings := hspellings ▸ List.mem_cons_self
  obtain ⟨hfold, hstart, -⟩ := hproper.2 s hs
  have hprint : printReserved t = bytesOf s := by
    rw [printReserved, hfirst, Option.bind_some, hspellings]
    rfl
  obtain ⟨c, w, hbytes⟩ : ∃ c w, bytesOf s = c :: w := by
    apply List.exists_cons_of_ne_nil
    intro hnil
    rw [hnil] at hstart
    cases hstart
  rw [hbytes] at hfold hprint
  rw [hprint, ← hsame]
  exact .reserved hmem hs (by rw [hfold, hbytes]) hrest

/-- A name that is a word and is not reserved. -/
def IsName (strg : CString) : Prop :=
  (∃ c w, strg.bytes = c :: w ∧ startsWord c = true ∧ ∀ b ∈ w, inWord b = true) ∧
    ∀ r ∈ reservedWords, ∀ s ∈ r.spellings, strg.bytes.map fold ≠ bytesOf s

/-- A text that `strtof` reads as the number. -/
def IsFloat (strtof : CString → UInt32) (fval : UInt32) (text : List UInt8) : Prop :=
  strtof (CString.read text) = fval ∧ ∃ sign int fraction exponent,
    text = sign ++ (int ++ 46 :: (fraction ++ exponent)) ∧ (sign = [] ∨ sign = [45]) ∧
      Decimal int ∧ (∀ b ∈ fraction, range 48 57 b = true) ∧ Exponent exponent

def Printable (strtof : CString → UInt32) (float : UInt32 → List UInt8) : Token → Prop
  | .floatLiteral fval => IsFloat strtof fval (float fval)
  | .name strg => IsName strg
  | .strgLiteral strg => ∀ b ∈ strg.bytes, Plain 34 b
  | _ => True

/-- Every keyword and every register is a reserved word, and every mark is a lexeme. -/
def Writable : Token → Prop
  | .punct c => c ∈ punctBytes
  | .keyword k => ∃ r ∈ reservedWords, r.token = .keyword k
  | .register n => ∃ r ∈ reservedWords, r.token = .register n
  | _ => True

theorem spells_printToken {t : Token} (hwritable : Writable t)
    (hprintable : Printable strtof float t) (rest : List UInt8) :
    Spells strtof (printToken float t) t (32 :: rest) := by
  have hword : EndsWord (32 :: rest) := endsWord_cons rfl (by decide) rest
  cases t with
  | keyword k => exact spells_reserved hwritable hword
  | register n => exact spells_reserved hwritable hword
  | punct c =>
      refine .punct hwritable ?_
      intro x hx
      obtain rfl := Option.some.inj hx
      exact ⟨fun _ => rfl, fun _ => by decide⟩
  | intLiteral ival => exact spells_int ival hword
  | uintLiteral uval => exact spells_uint uval hword
  | floatLiteral fval =>
      obtain ⟨hvalue, sign, int, fraction, exponent, htext, hsign, hint, hfraction, hexp⟩ :=
        hprintable
      have hfloat : Spells strtof _ _ (32 :: rest) :=
        .float hsign hint hfraction hexp hword
      rw [← htext, hvalue] at hfloat
      exact hfloat
  | name strg =>
      obtain ⟨⟨c, w, hbytes, hc, hw⟩, hfree⟩ := hprintable
      rw [printToken, hbytes]
      rw [hbytes] at hfree
      exact .name hbytes hc hw hfree hword
  | strgLiteral strg => exact .strg .double hprintable

theorem spelled_space {ts : List Token} {text : List UInt8} {b : UInt8} (hb : isSpace b = true)
    (h : Spelled strtof ts text) : Spelled strtof ts (b :: text) := by
  cases h with
  | nil hg => exact .nil (.space hb hg)
  | cons hg hw hrest => exact .cons (.space hb hg) hw hrest

theorem spelled_print {ts : List Token}
    (h : ∀ t ∈ ts, Writable t ∧ Printable strtof float t) :
    Spelled strtof ts (ts.flatMap fun t => printToken float t ++ [32]) := by
  induction ts with
  | nil => exact .nil .nil
  | cons t ts ih =>
      rw [List.forall_mem_cons] at h
      rw [List.flatMap_cons, List.append_assoc]
      have hfirst := spells_printToken h.1.1 h.1.2
        (ts.flatMap fun t => printToken float t ++ [32])
      have hrest : Spelled strtof ts (32 :: ts.flatMap fun t => printToken float t ++ [32]) :=
        spelled_space (by decide) (ih h.2)
      exact Spelled.cons (g := []) .nil hfirst hrest

end Printed

/-! ## Tokens of a source -/

@[simp] theorem writable_keyword (k : Keyword) : Writable (.keyword k) := by
  have hfound : (reservedWords.find? fun r => r.token = .keyword k).isSome := by
    cases k <;> rfl
  rw [List.find?_isSome] at hfound
  obtain ⟨r, hr, htoken⟩ := hfound
  exact ⟨r, hr, of_decide_eq_true htoken⟩

@[simp] theorem writable_registerToken (r : Register) : Writable (registerToken r) := by
  rw [registerToken]
  split
  · exact writable_keyword .SP
  · next hr =>
      have hfound : ∀ n < 33, n ≠ 32 →
          (reservedWords.find? fun w => w.token = .register (n + 1)).isSome := by decide +kernel
      have hword := hfound r r.isLt fun h => hr (Fin.ext h)
      rw [List.find?_isSome] at hword
      obtain ⟨w, hw, htoken⟩ := hword
      exact ⟨w, hw, of_decide_eq_true htoken⟩

@[simp] theorem writable_constantToken (c : Parser.IndexConstant) :
    Writable (constantToken c) := by
  cases c <;> trivial

@[simp] theorem writable_punct (c : UInt8) : Writable (.punct c) ↔ c ∈ punctBytes := Iff.rfl

@[simp] theorem writable_name (strg : CString) : Writable (.name strg) := trivial

@[simp] theorem writable_strg (strg : CString) : Writable (.strgLiteral strg) := trivial

@[simp] theorem writable_float (fval : UInt32) : Writable (.floatLiteral fval) := trivial

theorem writable_lexemeToken (l : OperatorPrecedence.Lexeme Parser.IndexConstant Parser.IndexOp) :
    Writable (lexemeToken l) := by
  cases l with
  | leaf c => exact writable_constantToken c
  | operator op =>
      have hall : ∀ op, Scanner.opByte op ∈ punctBytes := by
        intro op
        cases op <;> decide
      exact hall op
  | openParen => exact (by decide : (40 : UInt8) ∈ punctBytes)
  | closeParen => exact (by decide : (41 : UInt8) ∈ punctBytes)

def AllWritable (ts : List Token) : Prop := ∀ t ∈ ts, Writable t

@[simp] theorem allWritable_nil : AllWritable [] := List.forall_mem_nil _

@[simp] theorem allWritable_cons {t : Token} {ts : List Token} :
    AllWritable (t :: ts) ↔ Writable t ∧ AllWritable ts := List.forall_mem_cons

@[simp] theorem allWritable_append {ts us : List Token} :
    AllWritable (ts ++ us) ↔ AllWritable ts ∧ AllWritable us := List.forall_mem_append

@[simp] theorem allWritable_flatMap {α : Type} {xs : List α} {f : α → List Token}
    (h : ∀ x, AllWritable (f x)) : AllWritable (xs.flatMap f) := by
  intro t ht
  obtain ⟨x, -, hx⟩ := List.mem_flatMap.mp ht
  exact h x t hx

@[simp] theorem allWritable_indexFringe (expr : IndexExpr) : AllWritable (indexFringe expr) :=
  List.forall_mem_map.mpr fun l _ => writable_lexemeToken l

@[simp] theorem Mode1.allWritable (mode : Mode1) : AllWritable mode.fringe := by
  cases mode with
  | register r => simp [fringe]
  | registerIndex r index => cases index <;> simp [fringe, punctBytes]
  | name strg => simp [fringe]

@[simp] theorem Mode2.allWritable (mode : Mode2) : AllWritable mode.fringe := by
  cases mode <;> simp [fringe]

@[simp] theorem Mode3.allWritable (mode : Mode3) : AllWritable mode.fringe := by
  cases mode <;> simp [fringe]

@[simp] theorem VarConstant.writable_token (c : VarConstant) : Writable c.token := by
  cases c <;> simp [token]

theorem AssemblerInstruction.allWritable (instr : AssemblerInstruction) :
    AllWritable instr.fringe := by
  cases instr <;> simp [fringe, punctBytes]

theorem VarDef.allWritable (d : VarDef) : AllWritable d.fringe := by
  cases d <;> simp [fringe, punctBytes]

theorem allWritable_fringe (source : List Instruction) : AllWritable (fringe source) := by
  apply allWritable_flatMap
  intro i
  cases i with
  | assembler instr => exact instr.allWritable
  | varDef d => exact d.allWritable
  | label name => simp [Instruction.fringe, punctBytes]
  | includeFile name => simp [Instruction.fringe]

/-! ## The round trip -/

/-- A printed source is read back, if its names, strings and floating point numbers can be
written. -/
theorem parse_print {strtof : CString → UInt32} {float : UInt32 → List UInt8}
    {source : List Instruction} (hne : source ≠ []) (hordered : ∀ i ∈ source, i.Ordered)
    (hprintable : ∀ t ∈ fringe source, Printable strtof float t) :
    parse (tokens strtof (print float source)) = some source := by
  have htext : Spelled strtof (fringe source) (print float source) :=
    spelled_print fun t ht => ⟨allWritable_fringe source t ht, hprintable t ht⟩
  rw [htext.tokens_eq]
  exact parse_of_derives ⟨hne, hordered, rfl⟩

/-- `data n[0x1f]` and `mov r1[-7], r3`. -/
def sample : List Instruction :=
  [.varDef (.slots ⟨[110], by decide⟩ (.uint 31)),
    .assembler (.mov (.registerIndex ⟨0, by decide⟩ (some (.leaf (.int (-7)))))
      (.mode2 (.mode1 (.register ⟨2, by decide⟩))))]

theorem parse_print_sample :
    parse (tokens (fun _ => 0) (print (fun _ => []) sample)) = some sample := by
  refine parse_print (List.cons_ne_nil _ _) ?_ ?_
  · rw [sample, List.forall_mem_cons, List.forall_mem_singleton]
    exact ⟨trivial, trivial, trivial⟩
  · have hname : IsName ⟨[110], by decide⟩ :=
      ⟨⟨110, [], rfl, by decide, List.forall_mem_nil _⟩, by decide +kernel⟩
    have hall : (fringe sample).Forall (Printable (fun _ => 0) fun _ => []) :=
      ⟨trivial, hname, trivial, trivial, trivial, trivial, trivial, trivial, trivial, trivial,
        trivial, trivial⟩
    exact List.forall_iff_forall_mem.mp hall

end SimpleVm.Syntax
