import Mathlib.Data.List.Nodup
import SimpleVm.Assembler.Lexemes

/-!
# Words

A text of letters, digits and underscores that does not begin with a digit is
one lexeme up to the first other byte. It is a reserved word if it is one in
lower case, and otherwise a name, which keeps its case.
-/

namespace SimpleVm.Scanner

variable {strtof : CString → UInt32}

/-! ## Bytes of words -/

def startsWord (b : UInt8) : Bool := range 97 122 (fold b) || b == 95

def inWord (b : UInt8) : Bool := range 97 122 (fold b) || b == 95 || range 48 57 b

theorem inWord_of_startsWord {b : UInt8} (h : startsWord b = true) : inWord b = true := by
  simp only [startsWord, inWord, Bool.or_eq_true] at h ⊢
  exact Or.inl h

theorem toNat_fold (b : UInt8) :
    (fold b).toNat = if 65 ≤ b.toNat ∧ b.toNat ≤ 90 then b.toNat + 32 else b.toNat := by
  have hcond : (65 ≤ b ∧ b ≤ 90) ↔ (65 ≤ b.toNat ∧ b.toNat ≤ 90) := Iff.rfl
  rw [fold]
  by_cases h : 65 ≤ b.toNat ∧ b.toNat ≤ 90
  · rw [if_pos (hcond.mpr h), if_pos h, UInt8.toNat_add]
    change (b.toNat + 32) % 256 = _
    omega
  · rw [if_neg (fun h' => h (hcond.mp h')), if_neg h]

theorem range_eq_true {first last b : UInt8} :
    range first last b = true ↔ first.toNat ≤ b.toNat ∧ b.toNat ≤ last.toNat := by
  rw [range, Bool.and_eq_true, decide_eq_true_eq, decide_eq_true_eq]
  exact Iff.rfl

theorem startsWord_iff {b : UInt8} : startsWord b = true ↔
    (97 ≤ (fold b).toNat ∧ (fold b).toNat ≤ 122) ∨ b.toNat = 95 := by
  rw [startsWord, Bool.or_eq_true, range_eq_true, beq_iff_eq, ← UInt8.toNat_inj]
  exact Iff.rfl

theorem inWord_iff {b : UInt8} : inWord b = true ↔
    (97 ≤ (fold b).toNat ∧ (fold b).toNat ≤ 122) ∨ b.toNat = 95 ∨
      (48 ≤ b.toNat ∧ b.toNat ≤ 57) := by
  rw [inWord, Bool.or_eq_true, Bool.or_eq_true, range_eq_true, range_eq_true, beq_iff_eq,
    ← UInt8.toNat_inj, or_assoc]
  exact Iff.rfl

theorem fold_fold (b : UInt8) : fold (fold b) = fold b := by
  have hb := toNat_fold b
  rw [← UInt8.toNat_inj, toNat_fold]
  split at hb <;> split <;> omega

theorem startsWord_fold (b : UInt8) : startsWord (fold b) = startsWord b := by
  have hb := toNat_fold b
  rw [Bool.eq_iff_iff, startsWord_iff, startsWord_iff, fold_fold]
  split at hb <;> omega

/-- A byte of a word can be told from its lower case alone. -/
theorem inWord_fold (b : UInt8) : inWord (fold b) = inWord b := by
  have hb := toNat_fold b
  rw [Bool.eq_iff_iff, inWord_iff, inWord_iff, fold_fold]
  split at hb <;> omega

/-! ## Reserved words -/

def bytesOf (text : String) : List UInt8 := text.toList.map Char.toUInt8

structure ReservedWord where
  spellings : List String
  token : Token

def keywordTable : List ReservedWord :=
  [⟨["include"], .keyword .INCLUDE⟩, ⟨["data"], .keyword .DATA⟩,
    ⟨["extern"], .keyword .EXTERN⟩, ⟨["int"], .keyword .INT⟩, ⟨["uint"], .keyword .UINT⟩,
    ⟨["float"], .keyword .FLOAT⟩, ⟨["strg"], .keyword .STRG⟩,
    ⟨["mov", "move"], .keyword .MOV⟩, ⟨["push"], .keyword .PUSH⟩, ⟨["pop"], .keyword .POP⟩,
    ⟨["cpy", "copy"], .keyword .CPY⟩, ⟨["lt"], .keyword .LT⟩, ⟨["gt"], .keyword .GT⟩,
    ⟨["lte"], .keyword .LTE⟩, ⟨["gte"], .keyword .GTE⟩, ⟨["eq"], .keyword .EQ⟩,
    ⟨["neq"], .keyword .NEQ⟩, ⟨["setf"], .keyword .SETF⟩, ⟨["clrf"], .keyword .CLRF⟩,
    ⟨["call"], .keyword .CALL⟩, ⟨["jmp"], .keyword .JMP⟩, ⟨["ret"], .keyword .RET⟩,
    ⟨["callt"], .keyword .CALLT⟩, ⟨["jmpt"], .keyword .JMPT⟩, ⟨["rett"], .keyword .RETT⟩,
    ⟨["callf"], .keyword .CALLF⟩, ⟨["jmpf"], .keyword .JMPF⟩, ⟨["retf"], .keyword .RETF⟩,
    ⟨["add"], .keyword .ADD⟩, ⟨["sub"], .keyword .SUB⟩, ⟨["mul"], .keyword .MUL⟩,
    ⟨["div"], .keyword .DIV⟩, ⟨["mod"], .keyword .MOD⟩, ⟨["addi"], .keyword .ADDI⟩,
    ⟨["subi"], .keyword .SUBI⟩, ⟨["muli"], .keyword .MULI⟩, ⟨["divi"], .keyword .DIVI⟩,
    ⟨["modi"], .keyword .MODI⟩, ⟨["addu"], .keyword .ADDU⟩, ⟨["subu"], .keyword .SUBU⟩,
    ⟨["mulu"], .keyword .MULU⟩, ⟨["divu"], .keyword .DIVU⟩, ⟨["modu"], .keyword .MODU⟩,
    ⟨["addf"], .keyword .ADDF⟩, ⟨["subf"], .keyword .SUBF⟩, ⟨["mulf"], .keyword .MULF⟩,
    ⟨["divf"], .keyword .DIVF⟩, ⟨["modf"], .keyword .MODF⟩, ⟨["exit"], .keyword .EXIT⟩,
    ⟨["abort"], .keyword .ABORT⟩, ⟨["nop"], .keyword .NOP⟩]

/-- The words of a register, with and without a leading zero. -/
def registerWord (n : ℕ) : ReservedWord where
  spellings := if n < 10 then ["r" ++ toString n, "r0" ++ toString n] else ["r" ++ toString n]
  token := .register n

def reservedWords : List ReservedWord :=
  keywordTable ++ ((List.range 32).map (fun i => registerWord (i + 1)) ++
    [⟨["sp"], .keyword .SP⟩])

/-- The pattern of one word, or of two. -/
def ReservedWord.pattern (w : ReservedWord) : Regex UInt8 :=
  match w.spellings with
  | [] => .never
  | [text] => word text
  | text :: text' :: _ => .alt (word text) (word text')

def ReservedWord.rule (w : ReservedWord) : LexRule UInt8 Action := ⟨w.pattern, .ret w.token⟩

def nameRule : LexRule UInt8 Action where
  pattern := .seq (.one startsWord) (.star (.one inWord))
  action := .name

/-- The rules of the reserved words come first, and none of the others begins with a letter
but that of the names and the last one. -/
def otherRules : List (LexRule UInt8 Action) := punctRules ++ literalRules.take 3

def laterRules : List (LexRule UInt8 Action) :=
  [⟨word "\"", .openQuote .DQUOTE⟩, ⟨word "'", .openQuote .SQUOTE⟩,
    ⟨word "//", .begin .LCOMMENT⟩, ⟨word "/*", .begin .BCOMMENT⟩,
    ⟨.plus (oneOf [32, 9, 13, 10, 11, 12]), .ignore⟩, ⟨any, .invalidCharacter⟩]

theorem initialRules_eq : initialRules =
    reservedWords.map ReservedWord.rule ++ (otherRules ++ nameRule :: laterRules) := rfl

/-! ## What the reserved words match -/

theorem matches_sequence_byte {cs w : List UInt8} :
    (sequence (cs.map byte)).Matches w ↔ w.map fold = cs.map fold := by
  induction cs generalizing w with
  | nil =>
      change (Regex.empty : Regex UInt8).Matches w ↔ _
      rw [Regex.matches_empty, List.map_nil, List.map_eq_nil_iff]
  | cons c cs ih =>
      change (Regex.seq (byte c) (sequence (cs.map byte))).Matches w ↔ _
      rw [Regex.matches_seq, List.map_cons]
      constructor
      · rintro ⟨u, v, rfl, hu, hv⟩
        obtain ⟨b, rfl, hb⟩ := Regex.matches_one.mp hu
        rw [List.singleton_append, List.map_cons, ih.mp hv, eq_of_beq hb]
      · intro h
        cases w with
        | nil => cases h
        | cons b w =>
            obtain ⟨hb, hw⟩ := List.cons.inj h
            exact ⟨[b], w, rfl, Regex.matches_one.mpr ⟨b, rfl, beq_iff_eq.mpr hb⟩, ih.mpr hw⟩

theorem word_eq_sequence (text : String) : word text = sequence ((bytesOf text).map byte) := by
  rw [word, bytesOf, List.map_map]
  rfl

theorem matches_word {text : String} {w : List UInt8} :
    (word text).Matches w ↔ w.map fold = (bytesOf text).map fold := by
  rw [word_eq_sequence]
  exact matches_sequence_byte

/-- One or two words, of which the first byte begins a word and the others go on with it. -/
def ReservedWord.IsProper (w : ReservedWord) : Prop :=
  (w.spellings.length = 1 ∨ w.spellings.length = 2) ∧
    ∀ text ∈ w.spellings, (bytesOf text).map fold = bytesOf text ∧
      (bytesOf text).head?.any startsWord = true ∧ (bytesOf text).all inWord = true

instance (w : ReservedWord) : Decidable w.IsProper := inferInstanceAs (Decidable (_ ∧ _))

theorem reservedWords_proper : ∀ w ∈ reservedWords, w.IsProper := by decide +kernel

theorem ReservedWord.matches_iff {w : ReservedWord} (h : w.IsProper) {text : List UInt8} :
    w.pattern.Matches text ↔ ∃ spelling ∈ w.spellings, text.map fold = bytesOf spelling := by
  obtain ⟨hlen, hall⟩ := h
  obtain ⟨spellings, token⟩ := w
  rcases spellings with _ | ⟨s, _ | ⟨s', _ | ⟨s'', more⟩⟩⟩
  · simp at hlen
  · have hs := (hall s (by simp)).1
    simp only [pattern, matches_word, hs, List.mem_singleton, exists_eq_left]
  · have hs := (hall s (by simp)).1
    have hs' := (hall s' (by simp)).1
    simp only [pattern, Regex.matches_alt, matches_word, hs, hs', List.mem_cons, List.not_mem_nil,
      or_false, exists_eq_or_imp, exists_eq_left]
  · simp at hlen

/-- No spelling belongs to two reserved words. -/
theorem spellings_nodup :
    (reservedWords.flatMap fun r => r.spellings.map bytesOf).Nodup := by decide +kernel

/-! ## One word -/

/-- The bytes that a word can begin with. -/
def wordStarts : List UInt8 :=
  95 :: (List.range 26).flatMap fun i => [UInt8.ofNat (65 + i), UInt8.ofNat (97 + i)]

theorem mem_wordStarts {b : UInt8} (h : startsWord b = true) : b ∈ wordStarts := by
  have hb := toNat_fold b
  have hlt := b.toNat_lt
  have hmem : ∀ i < 26, UInt8.ofNat (65 + i) ∈ wordStarts ∧ UInt8.ofNat (97 + i) ∈ wordStarts := by
    decide
  have hofNat : ∀ n, b.toNat = n → b = UInt8.ofNat n := by
    rintro n rfl
    exact UInt8.ofNat_toNat.symm
  rw [startsWord_iff] at h
  rcases h with hletter | hunderscore
  · split at hb
    · obtain ⟨i, hi⟩ := Nat.exists_eq_add_of_le (show 65 ≤ b.toNat by omega)
      rw [hofNat _ hi]
      exact (hmem i (by omega)).1
    · obtain ⟨i, hi⟩ := Nat.exists_eq_add_of_le (show 97 ≤ b.toNat by omega)
      rw [hofNat _ hi]
      exact (hmem i (by omega)).2
  · rw [hofNat _ hunderscore]
    exact List.mem_cons_self

/-- What begins like a word is at most one byte long for the other rules. -/
theorem wordStarts_facts : ∀ c ∈ wordStarts, (rulesAfter c otherRules).isEmpty = true ∧
    ∀ rule ∈ laterRules, (rule.pattern.deriv c).bound = some 0 := by
  have hall : wordStarts.all fun c => decide ((rulesAfter c otherRules).isEmpty = true ∧
      ∀ rule ∈ laterRules, (rule.pattern.deriv c).bound = some 0) := by decide +kernel
  exact fun c hc => of_decide_eq_true (List.all_eq_true.mp hall c hc)

theorem deriv_of_rulesAfter {a : UInt8} {rules : List (LexRule UInt8 Action)}
    (h : rulesAfter a rules = []) : ∀ rule ∈ rules, rule.pattern.deriv a = .never := by
  induction rules with
  | nil => simp
  | cons rule rules ih =>
      rw [rulesAfter] at h
      split at h
      · next hnever => exact List.forall_mem_cons.mpr ⟨hnever, ih h⟩
      · cases h

section Words

variable {c : UInt8} {w rest : List UInt8}

theorem startsWord_of_reserved {r : ReservedWord} (hr : r ∈ reservedWords) {s : String}
    (hs : s ∈ r.spellings) (hfold : (c :: w).map fold = bytesOf s) : startsWord c = true := by
  have hstart := ((reservedWords_proper r hr).2 s hs).2.1
  rw [← hfold] at hstart
  rw [← startsWord_fold]
  exact hstart

theorem longest_reserved {r : ReservedWord} (hr : r ∈ reservedWords)
    (hrest : ∀ x ∈ rest.head?, inWord x = false) {m : ℕ}
    (h : r.pattern.longest (c :: w ++ rest) = some m) :
    m ≤ (c :: w).length ∧
      (m = (c :: w).length → ∃ s ∈ r.spellings, (c :: w).map fold = bytesOf s) := by
  have hproper := reservedWords_proper r hr
  obtain ⟨hle, hmatch⟩ := Regex.matches_of_longest h
  obtain ⟨s, hs, hfold⟩ := (ReservedWord.matches_iff hproper).mp hmatch
  have hall : ∀ b ∈ (c :: w ++ rest).take m, inWord b = true := by
    intro b hb
    rw [← inWord_fold]
    exact List.all_eq_true.mp (hproper.2 s hs).2.2 _ (hfold ▸ List.mem_map_of_mem hb)
  have hm : m ≤ (c :: w).length := by
    by_contra hlong
    obtain ⟨k, rfl⟩ := Nat.exists_eq_add_of_lt (Nat.not_le.mp hlong)
    cases rest with
    | nil =>
        rw [List.append_nil] at hle
        omega
    | cons x rest =>
        have hx : x ∈ (c :: w ++ x :: rest).take ((c :: w).length + k + 1) := by
          rw [List.take_append]
          apply List.mem_append_right
          have hk : (c :: w).length + k + 1 - (c :: w).length = k + 1 := by omega
          rw [hk, List.take_succ_cons]
          exact List.mem_cons_self
        exact absurd (hall x hx) (by simp [hrest x rfl])
  refine ⟨hm, ?_⟩
  rintro rfl
  rw [List.take_left] at hfold
  exact ⟨s, hs, hfold⟩

theorem longest_name (hc : startsWord c = true) (hw : ∀ b ∈ w, inWord b = true)
    (hrest : ∀ x ∈ rest.head?, inWord x = false) :
    nameRule.pattern.longest (c :: w ++ rest) = some (c :: w).length := by
  have hderiv : nameRule.pattern.deriv c = .star (.one inWord) := by
    simp [nameRule, Regex.deriv, Regex.nullable, Regex.seqNever, hc]
  have htake : (w ++ rest).takeWhile inWord = w := by
    cases rest with
    | nil => rw [List.append_nil, List.takeWhile_eq_self_iff.mpr hw]
    | cons x rest =>
        rw [List.takeWhile_append_of_pos hw, List.takeWhile_cons_of_neg (by simp [hrest x rfl]),
          List.append_nil]
  rw [List.cons_append, Regex.longest_cons, hderiv, Regex.longest_star_one, htake]
  rfl

theorem longest_other (hc : startsWord c = true) {rule : LexRule UInt8 Action}
    (hrule : rule ∈ otherRules) (input : List UInt8) {m : ℕ}
    (h : rule.pattern.longest (c :: input) = some m) : m = 0 := by
  have hempty := List.isEmpty_iff.mp (wordStarts_facts c (mem_wordStarts hc)).1
  rw [Regex.longest_cons, deriv_of_rulesAfter hempty rule hrule, Regex.longest_never] at h
  simp only [Option.ite_none_right_eq_some, Option.some.injEq] at h
  exact h.2.symm

theorem longest_later (hc : startsWord c = true) {rule : LexRule UInt8 Action}
    (hrule : rule ∈ laterRules) (input : List UInt8) {m : ℕ}
    (h : rule.pattern.longest (c :: input) = some m) : m ≤ 1 := by
  have hbound := (wordStarts_facts c (mem_wordStarts hc)).2 rule hrule
  cases m with
  | zero => exact Nat.zero_le 1
  | succ m =>
      obtain ⟨hle, hmatch⟩ := Regex.matches_of_longest h
      rw [List.take_succ_cons, Regex.matches_cons] at hmatch
      have hlen := Regex.length_le_of_matches hbound hmatch
      rw [List.length_take] at hlen
      rw [List.length_cons] at hle
      omega

/-- A word that is not reserved is a name. -/
theorem lexeme_name (hc : startsWord c = true) (hw : ∀ b ∈ w, inWord b = true)
    (hrest : ∀ x ∈ rest.head?, inWord x = false)
    (hfree : ∀ r ∈ reservedWords, ∀ s ∈ r.spellings, (c :: w).map fold ≠ bytesOf s) :
    lexeme .INITIAL c (w ++ rest) = (w.length, .name) := by
  have hbest : firstLongest initialRules (c :: w ++ rest) = some (w.length + 1, .name) := by
    have hsplit : initialRules =
        (reservedWords.map ReservedWord.rule ++ otherRules) ++ nameRule :: laterRules := by
      rw [initialRules_eq, List.append_assoc]
    rw [hsplit]
    apply firstLongest_eq (longest_name hc hw hrest)
    · intro rule hrule m hm
      rcases List.mem_append.mp hrule with hreserved | hother
      · obtain ⟨r, hr, rfl⟩ := List.mem_map.mp hreserved
        obtain ⟨hle, heq⟩ := longest_reserved hr hrest hm
        refine Nat.lt_of_le_of_ne hle fun hm => ?_
        obtain ⟨s, hs, hfold⟩ := heq hm
        exact hfree r hr s hs hfold
      · rw [longest_other hc hother _ hm]
        exact Nat.zero_lt_succ _
    · intro rule hrule m hm
      exact (longest_later hc hrule _ hm).trans (Nat.succ_le_succ (Nat.zero_le _))
  rw [lexeme, ← List.cons_append, rules, hbest]

/-- A reserved word is one in any mix of cases. -/
theorem lexeme_reserved {r : ReservedWord} (hr : r ∈ reservedWords) {s : String}
    (hs : s ∈ r.spellings) (hfold : (c :: w).map fold = bytesOf s)
    (hrest : ∀ x ∈ rest.head?, inWord x = false) :
    lexeme .INITIAL c (w ++ rest) = (w.length, .ret r.token) := by
  have hproper := reservedWords_proper r hr
  have hc := startsWord_of_reserved hr hs hfold
  have hw : ∀ b ∈ w, inWord b = true := by
    intro b hb
    rw [← inWord_fold]
    exact List.all_eq_true.mp (hproper.2 s hs).2.2 _ (hfold ▸ List.mem_map_of_mem (List.mem_cons_of_mem c hb))
  have hlong : r.pattern.longest (c :: w ++ rest) = some (c :: w).length := by
    have hmatch : r.pattern.Matches ((c :: w ++ rest).take (c :: w).length) := by
      rw [List.take_left]
      exact (ReservedWord.matches_iff hproper).mpr ⟨s, hs, hfold⟩
    obtain ⟨n, hn, hle⟩ := Regex.exists_longest_of_matches (by simp) hmatch
    rw [hn, Nat.le_antisymm (longest_reserved hr hrest hn).1 hle]
  have hbest : firstLongest initialRules (c :: w ++ rest) =
      some (w.length + 1, .ret r.token) := by
    obtain ⟨pre, post, hsplit⟩ := List.append_of_mem hr
    have hrules : initialRules = pre.map ReservedWord.rule ++
        r.rule :: (post.map ReservedWord.rule ++ (otherRules ++ nameRule :: laterRules)) := by
      rw [initialRules_eq, hsplit]
      simp
    rw [hrules]
    apply firstLongest_eq hlong
    · intro rule hrule m hm
      obtain ⟨r', hr', rfl⟩ := List.mem_map.mp hrule
      have hmem : r' ∈ reservedWords := hsplit ▸ List.mem_append_left _ hr'
      obtain ⟨hle, heq⟩ := longest_reserved hmem hrest hm
      refine Nat.lt_of_le_of_ne hle fun hm => ?_
      obtain ⟨s', hs', hfold'⟩ := heq hm
      -- the spelling would belong to both
      have hnodup := spellings_nodup
      rw [hsplit, List.flatMap_append, List.flatMap_cons] at hnodup
      have hdisjoint := List.disjoint_of_nodup_append hnodup
      refine hdisjoint (a := bytesOf s) ?_ ?_
      · rw [← hfold, hfold']
        exact List.mem_flatMap.mpr ⟨r', hr', List.mem_map_of_mem hs'⟩
      · exact List.mem_append_left _ (List.mem_map_of_mem hs)
    · intro rule hrule m hm
      rcases List.mem_append.mp hrule with hreserved | hother
      · obtain ⟨r', hr', rfl⟩ := List.mem_map.mp hreserved
        have hmem : r' ∈ reservedWords := hsplit ▸ List.mem_append_right _ (List.mem_cons_of_mem r hr')
        exact (longest_reserved hmem hrest hm).1
      rcases List.mem_append.mp hother with hother | hname
      · rw [longest_other hc hother _ hm]
        exact Nat.zero_le _
      rcases List.mem_cons.mp hname with rfl | hlater
      · rw [longest_name hc hw hrest] at hm
        exact (Option.some.inj hm).symm.le
      · exact (longest_later hc hlater _ hm).trans (Nat.succ_le_succ (Nat.zero_le _))
  rw [lexeme, ← List.cons_append, rules, hbest]

end Words

end SimpleVm.Scanner
