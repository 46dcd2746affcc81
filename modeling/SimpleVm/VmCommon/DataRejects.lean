import SimpleVm.VmCommon.DataRoundTrip

/-!
# What the reader of data items rejects

No read is checked. Bytes that the file does not have leave what was there
before, so an input that breaks off is an item all the same, and only a tag
or a length that cannot be served ends the program.
-/

namespace SimpleVm.DataItem

/-- The bytes of one data item, with a string of any length that an `int` can hold. -/
inductive Encoding : List UInt8 → Prop
  | word (tag : ℕ) (htag : tag < 3) (w : UInt32) :
      Encoding (LittleEndian.encode 4 tag ++ LittleEndian.encode 4 w.toNat)
  | string (chars : List UInt8) (hlen : chars.length < 2 ^ 31) :
      Encoding (LittleEndian.encode 4 3 ++ LittleEndian.encode 4 chars.length ++ chars)

def BeginsWithItem (input : List UInt8) : Prop := ∃ bytes, Encoding bytes ∧ bytes <+: input

/-- Everything the writer writes is the encoding of an item. -/
theorem encoding_of_save {data : DataItem} {bytes : List UInt8}
    (h : saveDataItem data = .ok bytes) : Encoding bytes := by
  cases data with
  | integer ival =>
      obtain rfl := Except.ok.inj h
      exact .word 0 (by decide) _
  | unsigned uval =>
      obtain rfl := Except.ok.inj h
      exact .word 1 (by decide) _
  | float fval =>
      obtain rfl := Except.ok.inj h
      exact .word 2 (by decide) _
  | string sval =>
      rw [saveDataItem] at h
      split at h
      · cases h
      · next hlen =>
          obtain rfl := Except.ok.inj h
          rw [length_header, Nat.not_lt] at hlen
          have hchars : (sval.header.take sval.str.len).length = sval.str.len := by
            rw [List.length_take, length_header]
            exact Nat.min_eq_left hlen
          have hencoding := Encoding.string (sval.header.take sval.str.len) (by omega)
          rwa [hchars] at hencoding

/-- The tag that is read. -/
def tagRead (input : List UInt8) : ℕ := LittleEndian.decode (input.take 4)

/-- The length that is read, over what was in the variable before. -/
def lengthRead (env : LoadEnv) (input : List UInt8) : ℤ :=
  toInt (LittleEndian.decode (fread (LittleEndian.encode 4 env.garbage.toNat) (input.drop 4)).1)

theorem fread_zeros (input : List UInt8) :
    LittleEndian.decode (fread (List.replicate 4 0) input).1 = tagRead input := by
  rw [fread, List.length_replicate, List.drop_replicate]
  exact LittleEndian.decode_append_zeros _ _

theorem lengthRead_of_le (env : LoadEnv) {input : List UInt8} (h : 8 ≤ input.length) :
    lengthRead env input = toInt (LittleEndian.decode ((input.drop 4).take 4)) := by
  have hgot : ((input.drop 4).take 4).length = 4 := by
    rw [List.length_take, List.length_drop]
    omega
  have hdrop : (LittleEndian.encode 4 env.garbage.toNat).drop 4 = [] :=
    List.drop_eq_nil_of_le (LittleEndian.length_encode 4 _).le
  rw [lengthRead, fread, LittleEndian.length_encode, hgot, hdrop, List.append_nil]

theorem take_word (n : ℕ) (rest : List UInt8) :
    (LittleEndian.encode 4 n ++ rest).take 4 = LittleEndian.encode 4 n :=
  List.take_left' (LittleEndian.length_encode 4 n)

theorem drop_word (n : ℕ) (rest : List UInt8) :
    (LittleEndian.encode 4 n ++ rest).drop 4 = rest :=
  List.drop_left' (LittleEndian.length_encode 4 n)

/-- The tag is known, and the length of a string goes no further than the input. -/
def IsComplete (env : LoadEnv) (input : List UInt8) : Prop :=
  8 ≤ input.length ∧ (tagRead input < 3 ∨
    tagRead input = 3 ∧ 0 ≤ lengthRead env input ∧ lengthRead env input ≤ input.length - 8)

theorem Encoding.isComplete (env : LoadEnv) {bytes : List UInt8} (h : Encoding bytes)
    (rest : List UInt8) : IsComplete env (bytes ++ rest) := by
  cases h with
  | word tag htag w =>
      refine ⟨?_, .inl ?_⟩
      · simp only [List.length_append, LittleEndian.length_encode]
        omega
      · rw [tagRead, List.append_assoc, take_word, LittleEndian.decode_encode (by omega)]
        exact htag
  | string chars hlen =>
      have hlength : 8 ≤ (LittleEndian.encode 4 3 ++ LittleEndian.encode 4 chars.length ++
          chars ++ rest).length := by
        simp only [List.length_append, LittleEndian.length_encode]
        omega
      have hread : lengthRead env (LittleEndian.encode 4 3 ++
          LittleEndian.encode 4 chars.length ++ chars ++ rest) = chars.length := by
        rw [lengthRead_of_le env hlength, List.append_assoc, List.append_assoc, drop_word,
          take_word, LittleEndian.decode_encode (by omega), toInt_of_lt (by omega) (by omega)]
      refine ⟨hlength, .inr ⟨?_, ?_, ?_⟩⟩
      · rw [tagRead, List.append_assoc, List.append_assoc, take_word,
          LittleEndian.decode_encode (by omega)]
      · rw [hread]
        exact Int.natCast_nonneg _
      · rw [hread]
        simp only [List.length_append, LittleEndian.length_encode]
        omega

theorem encode_take {input : List UInt8} (h : 4 ≤ input.length) :
    LittleEndian.encode 4 (LittleEndian.decode (input.take 4)) = input.take 4 ∧
      LittleEndian.decode (input.take 4) < 2 ^ 32 := by
  have hgot : (input.take 4).length = 4 := by
    rw [List.length_take]
    exact Nat.min_eq_left h
  have hencode := LittleEndian.encode_decode (input.take 4)
  have hlt := LittleEndian.decode_lt (input.take 4)
  rw [hgot] at hencode hlt
  exact ⟨hencode, hlt⟩

theorem IsComplete.beginsWithItem {env : LoadEnv} {input : List UInt8}
    (h : IsComplete env input) : BeginsWithItem input := by
  obtain ⟨hlength, hcases⟩ := h
  have hrest : 4 ≤ (input.drop 4).length := by
    rw [List.length_drop]
    omega
  have hfour : 4 ≤ input.length := by omega
  obtain ⟨htag, -⟩ := encode_take hfour
  obtain ⟨hword, hlt⟩ := encode_take hrest
  rw [← tagRead] at htag
  generalize hn : LittleEndian.decode ((input.drop 4).take 4) = n at hword hlt
  rcases hcases with hknown | ⟨hstring, hnonneg, hle⟩
  · refine ⟨_, .word (tagRead input) hknown (UInt32.ofNat n), (input.drop 4).drop 4, ?_⟩
    rw [UInt32.toNat_ofNat_of_lt' hlt, htag, hword, List.append_assoc, List.take_append_drop,
      List.take_append_drop]
  · rw [lengthRead_of_le env hlength, hn] at hnonneg hle
    -- a length from `2 ^ 31` on is negative as an `int`
    have hsmall : n < 2 ^ 31 := by
      by_contra hlarge
      have hneg : toInt n < 0 := by
        rw [toInt, Int.bmod_def]
        omega
      omega
    rw [toInt_of_lt (by omega) (by omega)] at hle
    have hchars : (((input.drop 4).drop 4).take n).length = n := by
      rw [List.length_take, List.length_drop, List.length_drop]
      omega
    refine ⟨_, .string (((input.drop 4).drop 4).take n) (by omega),
      ((input.drop 4).drop 4).drop n, ?_⟩
    rw [hchars, hword, ← hstring, htag, List.append_assoc, List.take_append_drop,
      List.append_assoc, List.take_append_drop, List.take_append_drop]

/-- An item is complete when its tag is known and all of its bytes are there. -/
theorem beginsWithItem_iff (env : LoadEnv) (input : List UInt8) :
    BeginsWithItem input ↔ IsComplete env input := by
  constructor
  · rintro ⟨bytes, hencoding, rest, rfl⟩
    exact hencoding.isComplete env rest
  · exact IsComplete.beginsWithItem

/-! ## When the reader gives up -/

/-- An input that is no item ends the program. -/
def Rejects (env : LoadEnv) (i : ℕ) (input : List UInt8) : Prop :=
  ¬ BeginsWithItem input → loadDataItem env i input = .error .fatal

/-- The tag is unknown, or no block has room for the length. -/
def Unservable (env : LoadEnv) (input : List UInt8) : Prop :=
  3 < tagRead input ∨
    tagRead input = 3 ∧ (lengthRead env input < -1 ∨ lengthRead env input = 2 ^ 31 - 1)

theorem bind_ne_fatal {α β : Type} {x : Except Halt α} {f : α → Except Halt β}
    (hx : x ≠ .error .fatal) (hf : ∀ a, f a ≠ .error .fatal) : x >>= f ≠ .error .fatal := by
  cases x with
  | error e => exact fun h => hx (congrArg Except.error (Except.error.inj h))
  | ok a => exact hf a

theorem ok_ne_fatal {α : Type} (a : α) : (.ok a : Except Halt α) ≠ .error .fatal := by
  intro h
  cases h

theorem error_ne_fatal {α : Type} {e : Halt} (he : e ≠ .fatal) :
    (.error e : Except Halt α) ≠ .error .fatal := by
  intro h
  exact he (Except.error.inj h)

theorem strlenBlock_ne_fatal (block : List UInt8) : strlenBlock block ≠ .error .fatal := by
  rw [strlenBlock]
  split
  · exact ok_ne_fatal _
  · exact error_ne_fatal (by decide)

theorem writeBlock_ne_fatal (block : List UInt8) (i : ℕ) (cells : List UInt8) :
    writeBlock block i cells ≠ .error .fatal := by
  rw [writeBlock]
  split
  · exact ok_ne_fatal _
  · exact error_ne_fatal (by decide)

theorem makeRoom_ne_fatal (fresh : ℕ → UInt8) (buf : StringT) (need : ℤ) :
    buf.makeRoom fresh need ≠ .error .fatal := by
  rw [StringT.makeRoom]
  split
  · refine bind_ne_fatal ?_ fun cap => ok_ne_fatal _
    rw [StringT.doubleCap]
    split
    · exact ok_ne_fatal _
    · exact error_ne_fatal (by decide)
  · exact ok_ne_fatal _

/-- A string that is too long is never done with, which is no error. -/
theorem createString_ne_fatal (fresh : ℕ → UInt8) (str : Option CString) :
    StringT.createString fresh str ≠ .error .fatal := by
  cases str with
  | none => exact ok_ne_fatal _
  | some str =>
      refine bind_ne_fatal (makeRoom_ne_fatal _ _ _) fun room => ?_
      refine bind_ne_fatal ?_ fun buffer => ?_
      · exact bind_ne_fatal (strlenBlock_ne_fatal _) fun n => writeBlock_ne_fatal _ _ _
      · exact bind_ne_fatal (strlenBlock_ne_fatal _) fun len => ok_ne_fatal _

theorem loadString_fatal_iff (env : LoadEnv) (i : ℕ) (input : List UInt8) :
    loadString env i (input.drop 4) = .error .fatal ↔
      lengthRead env input < -1 ∨ lengthRead env input = 2 ^ 31 - 1 := by
  have hlen : toInt (LittleEndian.decode
      (fread (LittleEndian.encode 4 env.garbage.toNat) (input.drop 4)).1) =
        lengthRead env input := rfl
  simp only [loadString, hlen]
  split
  · next hbad => exact iff_of_true rfl hbad
  · next hgood =>
      refine iff_of_false ?_ hgood
      split
      · exact error_ne_fatal (by decide)
      · exact bind_ne_fatal (createString_ne_fatal _ _) fun sval => ok_ne_fatal _

theorem loadDataItem_fatal_iff (env : LoadEnv) (i : ℕ) (input : List UInt8) :
    loadDataItem env i input = .error .fatal ↔ Unservable env input := by
  have htag := fread_zeros input
  have hrest : (fread (List.replicate 4 0) input).2 = input.drop 4 := rfl
  simp only [loadDataItem, htag, hrest, Unservable]
  split
  · next hzero => exact iff_of_false (ok_ne_fatal _) (by omega)
  · next hone => exact iff_of_false (ok_ne_fatal _) (by omega)
  · next htwo => exact iff_of_false (ok_ne_fatal _) (by omega)
  · next hthree =>
      rw [loadString_fatal_iff, hthree]
      simp
  · next hzero hone htwo hthree =>
      simp only [imp_false] at hzero hone htwo hthree
      exact iff_of_true rfl (.inl (by omega))

/-- An input ends the program when it is no item only if its tag or length cannot be served. -/
theorem rejects_iff (env : LoadEnv) (i : ℕ) (input : List UInt8) :
    Rejects env i input ↔ BeginsWithItem input ∨ Unservable env input := by
  rw [Rejects, loadDataItem_fatal_iff, ← or_iff_not_imp_left]

/-- The end of a file reads as the integer zero. -/
theorem not_rejects_nothing : ¬ Rejects ⟨fun _ => 0, 0, fun _ => 0⟩ 0 [] := by
  intro h
  have hnone : ¬ BeginsWithItem [] := by
    intro hbegins
    obtain ⟨hlength, -⟩ := (beginsWithItem_iff ⟨fun _ => 0, 0, fun _ => 0⟩ []).mp hbegins
    exact absurd hlength (by decide)
  cases h hnone

end SimpleVm.DataItem
