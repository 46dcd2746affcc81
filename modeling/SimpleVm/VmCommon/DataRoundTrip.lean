import SimpleVm.Common.StringLaw
import SimpleVm.VmCommon.DataItem

/-!
# Writing data items and reading them back

Tags, numbers and lengths agree between writer and reader, so the reader
always stops where the writer did. The characters of a string do not: the
file gets the bytes of the struct in memory.
-/

namespace SimpleVm.DataItem

/-- What an item means, apart from where its characters are stored. -/
inductive Value where
  | integer (ival : Int32)
  | unsigned (uval : UInt32)
  | float (fval : UInt32)
  | string (text : CString)
  deriving DecidableEq

def value : DataItem → Value
  | .integer ival => .integer ival
  | .unsigned uval => .unsigned uval
  | .float fval => .float fval
  | .string sval => .string sval.str.rawString

/-- What the file says instead. -/
def savedValue : DataItem → Value
  | .string sval => .string (CString.read (sval.header.take sval.str.len ++ [0]))
  | data => data.value

def Valid : DataItem → Prop
  | .string sval => ∃ text, StringT.Holds text sval.str
  | _ => True

/-- The characters of a string happen to be the first bytes of its own struct. -/
def HeaderMatches : DataItem → Prop
  | .string sval => sval.str.rawString.bytes = sval.header.take sval.str.len
  | _ => True

def RoundTrips (env : LoadEnv) (items : List DataItem) : Prop :=
  ∃ bytes, saveDataItems items = .ok bytes ∧
    ∀ rest, ∃ loaded, loadDataItems env items.length (bytes ++ rest) = .ok (loaded, rest) ∧
      loaded.map value = items.map value

theorem length_header (s : StringRef) : s.header.length = 16 := by
  simp [StringRef.header]

theorem fread_append {old bytes rest : List UInt8} (h : bytes.length = old.length) :
    fread old (bytes ++ rest) = (bytes, rest) := by
  simp [fread, ← h]

theorem decode_word (w : UInt32) : LittleEndian.decode (LittleEndian.encode 4 w.toNat) = w.toNat :=
  LittleEndian.decode_encode w.toNat_lt

theorem fread_word (w : UInt32) {old : List UInt8} (h : old.length = 4) (rest : List UInt8) :
    fread old (LittleEndian.encode 4 w.toNat ++ rest) =
      (LittleEndian.encode 4 w.toNat, rest) :=
  fread_append (by rw [LittleEndian.length_encode, h])

theorem loadDataItem_of_string_tag (env : LoadEnv) (i : ℕ) {input tag rest : List UInt8}
    (hread : fread (List.replicate 4 0) input = (tag, rest))
    (htag : LittleEndian.decode tag = 3) :
    loadDataItem env i input = loadString env i rest := by
  simp only [loadDataItem, hread, htag]

theorem loadDataItem_save (env : LoadEnv) (i : ℕ) {data : DataItem} {bytes : List UInt8}
    (hsave : saveDataItem data = .ok bytes) (rest : List UInt8) :
    ∃ loaded, loadDataItem env i (bytes ++ rest) = .ok (loaded, rest) ∧
      loaded.value = data.savedValue := by
  cases data with
  | integer ival =>
      obtain rfl := Except.ok.inj hsave
      refine ⟨.integer ival, ?_, rfl⟩
      simp only [loadDataItem, List.append_assoc, fread_word _ List.length_replicate, decode_word,
        UInt32.ofNat_toNat]
      rfl
  | unsigned uval =>
      obtain rfl := Except.ok.inj hsave
      refine ⟨.unsigned uval, ?_, rfl⟩
      simp only [loadDataItem, List.append_assoc, fread_word _ List.length_replicate, decode_word,
        UInt32.ofNat_toNat]
      rfl
  | float fval =>
      obtain rfl := Except.ok.inj hsave
      refine ⟨.float fval, ?_, rfl⟩
      simp only [loadDataItem, List.append_assoc, fread_word _ List.length_replicate, decode_word,
        UInt32.ofNat_toNat]
      rfl
  | string sval =>
      rw [saveDataItem] at hsave
      split at hsave
      · cases hsave
      · rename_i hlen
        obtain rfl := Except.ok.inj hsave
        rw [length_header, not_lt] at hlen
        have hdecode : LittleEndian.decode (LittleEndian.encode 4 sval.str.len) = sval.str.len :=
          LittleEndian.decode_encode (by omega)
        have hint : toInt (sval.str.len : ℤ) = sval.str.len := toInt_of_lt (by omega) (by omega)
        have hchars : (sval.header.take sval.str.len).length = sval.str.len := by
          rw [List.length_take, length_header]
          omega
        have hfit : ((some (CString.read (sval.header.take sval.str.len ++ [0]))).getD
            CString.empty).strlen + 1 ≤ 2 ^ 30 := by
          have hle := (List.takeWhile_prefix (fun b : UInt8 => decide (b ≠ 0))
            (l := sval.header.take sval.str.len ++ [0])).length_le
          rw [List.length_append, hchars, List.length_singleton] at hle
          simp only [Option.getD_some, CString.strlen, CString.read]
          omega
        obtain ⟨str, hcreate, -, hheld⟩ := StringT.createString_spec env.fresh hfit
        have hlenRead (X : List UInt8) : fread (LittleEndian.encode 4 env.garbage.toNat)
            (LittleEndian.encode 4 sval.str.len ++ X) = (LittleEndian.encode 4 sval.str.len, X) :=
          fread_append (by rw [LittleEndian.length_encode, LittleEndian.length_encode])
        have hstrRead : fread (List.replicate sval.str.len 0)
            (sval.header.take sval.str.len ++ rest) = (sval.header.take sval.str.len, rest) :=
          fread_append (by rw [hchars, List.length_replicate])
        have hload : loadString env i (LittleEndian.encode 4 sval.str.len ++
            (sval.header.take sval.str.len ++ rest)) = .ok (.string ⟨str, env.addr i⟩, rest) := by
          simp only [loadString, hlenRead, hdecode, hint, Int.toNat_natCast, hstrRead]
          rw [if_neg (by omega), if_neg (by omega), hcreate, ok_bind]
        refine ⟨.string ⟨str, env.addr i⟩, ?_, ?_⟩
        · rw [List.append_assoc, List.append_assoc, loadDataItem_of_string_tag env i
            (fread_word _ List.length_replicate _) (decode_word _)]
          exact hload
        · simp only [value, savedValue, hheld.rawString_eq, Option.getD_some]

theorem loadDataItems_save (env : LoadEnv) {items : List DataItem} {bytes : List UInt8}
    (hsave : saveDataItems items = .ok bytes) (rest : List UInt8) :
    ∃ loaded, loadDataItems env items.length (bytes ++ rest) = .ok (loaded, rest) ∧
      loaded.map value = items.map savedValue := by
  induction items generalizing bytes with
  | nil =>
      obtain rfl := Except.ok.inj hsave
      exact ⟨[], rfl, rfl⟩
  | cons data items ih =>
      simp only [saveDataItems, bind_eq_ok, Except.ok.injEq] at hsave
      obtain ⟨head, hhead, tail, htail, rfl⟩ := hsave
      obtain ⟨first, hfirst, hvalue⟩ := loadDataItem_save env items.length hhead (tail ++ rest)
      obtain ⟨loaded, hload, hvalues⟩ := ih htail
      refine ⟨first :: loaded, ?_, ?_⟩
      · rw [List.length_cons, loadDataItems, List.append_assoc, hfirst]
        simp only [ok_bind, hload]
      · rw [List.map_cons, List.map_cons, hvalue, hvalues]

theorem savedValue_eq_iff {data : DataItem} (hvalid : data.Valid)
    (hsave : ∃ bytes, saveDataItem data = .ok bytes) :
    data.savedValue = data.value ↔ data.HeaderMatches := by
  cases data with
  | integer ival => simp [savedValue, value, HeaderMatches]
  | unsigned uval => simp [savedValue, value, HeaderMatches]
  | float fval => simp [savedValue, value, HeaderMatches]
  | string sval =>
      obtain ⟨bytes, hsave⟩ := hsave
      obtain ⟨text, hheld⟩ := hvalid
      rw [saveDataItem] at hsave
      split at hsave
      · cases hsave
      · rename_i hlen
        rw [length_header, not_lt] at hlen
        have htext : text.bytes.length = sval.str.len := hheld.len_eq.symm
        simp only [savedValue, value, HeaderMatches, Value.string.injEq, hheld.rawString_eq]
        constructor
        · intro heq
          have hread := congrArg CString.bytes heq
          simp only [CString.read] at hread
          have hpre : text.bytes <+: sval.header.take sval.str.len ++ [0] :=
            hread ▸ List.takeWhile_prefix _
          have htake := List.prefix_iff_eq_take.mp hpre
          rw [htext, List.take_append_of_le_length (by rw [List.length_take, length_header]; omega),
            List.take_take, Nat.min_self] at htake
          exact htake
        · intro heq
          rw [← heq]
          exact CString.read_append_nul text []

theorem saveDataItem_of_headerMatches {data : DataItem} (hvalid : data.Valid)
    (h : data.HeaderMatches) : ∃ bytes, saveDataItem data = .ok bytes := by
  cases data with
  | integer ival => exact ⟨_, rfl⟩
  | unsigned uval => exact ⟨_, rfl⟩
  | float fval => exact ⟨_, rfl⟩
  | string sval =>
      obtain ⟨text, hheld⟩ := hvalid
      have hlen := congrArg List.length h
      rw [hheld.rawString_eq, List.length_take] at hlen
      have htext : text.bytes.length = sval.str.len := hheld.len_eq.symm
      exact ⟨_, if_neg (by omega)⟩

/-- A list of items comes back from a file with its types and values exactly
when every string in it is spelled by its own struct. Numbers always do, and
so do empty strings. -/
theorem roundTrips_iff (env : LoadEnv) (items : List DataItem)
    (hvalid : ∀ data ∈ items, data.Valid) :
    RoundTrips env items ↔ ∀ data ∈ items, data.HeaderMatches := by
  constructor
  · rintro ⟨bytes, hsave, hload⟩
    obtain ⟨loaded, hrun, hvalues⟩ := hload []
    obtain ⟨loaded', hrun', hsaved⟩ := loadDataItems_save env hsave []
    obtain rfl : loaded = loaded' := congrArg Prod.fst (Except.ok.inj (hrun.symm.trans hrun'))
    have hsame : items.map savedValue = items.map value := hsaved.symm.trans hvalues
    clear hrun hrun' hload hvalues hsaved
    induction items generalizing bytes with
    | nil => simp
    | cons data items ih =>
        simp only [saveDataItems, bind_eq_ok, Except.ok.injEq] at hsave
        obtain ⟨head, hhead, tail, htail, rfl⟩ := hsave
        have hcons := List.cons.inj hsame
        rw [List.forall_mem_cons] at hvalid ⊢
        refine ⟨?_, ih hvalid.2 tail htail hcons.2⟩
        exact (savedValue_eq_iff hvalid.1 ⟨head, hhead⟩).mp hcons.1
  · intro h
    have hsave : ∃ bytes, saveDataItems items = .ok bytes := by
      induction items with
      | nil => exact ⟨[], rfl⟩
      | cons data items ih =>
          rw [List.forall_mem_cons] at hvalid h
          obtain ⟨head, hhead⟩ := saveDataItem_of_headerMatches hvalid.1 h.1
          obtain ⟨tail, htail⟩ := ih hvalid.2 h.2
          exact ⟨head ++ tail, by rw [saveDataItems, hhead, htail]; rfl⟩
    have hsame : items.map savedValue = items.map value := by
      apply List.map_congr_left
      intro data hdata
      exact (savedValue_eq_iff (hvalid data hdata)
        (saveDataItem_of_headerMatches (hvalid data hdata) (h data hdata))).mpr (h data hdata)
    obtain ⟨bytes, hbytes⟩ := hsave
    refine ⟨bytes, hbytes, ?_⟩
    intro rest
    obtain ⟨loaded, hrun, hvalues⟩ := loadDataItems_save env hbytes rest
    exact ⟨loaded, hrun, hvalues.trans hsame⟩

/-- Numbers and the empty string, which `create_string(NULL)` gives eight bytes. -/
theorem roundTrips_numbers_and_empty_string :
    RoundTrips ⟨fun _ => 0, 0, fun _ => 0⟩ [.integer (-5), .unsigned 7, .float 0x3f800000,
      .string ⟨⟨List.replicate 8 0, 0, 8⟩, 0x5555557592d0⟩] := by
  apply (roundTrips_iff _ _ _).mpr
  · simp [HeaderMatches, StringT.rawString, CString.read]
  · simp only [List.forall_mem_cons, List.not_mem_nil, false_imp_iff, implies_true, and_true]
    refine ⟨trivial, trivial, trivial, CString.empty, ?_⟩
    exact ⟨by decide, by decide, by decide, by decide⟩

/-- The string `A` is written as the low byte of its buffer's address. -/
theorem not_roundTrips_one_letter :
    ¬ RoundTrips ⟨fun _ => 0, 0, fun _ => 0⟩
      [.string ⟨⟨[65, 0, 0, 0, 0, 0, 0, 0], 1, 8⟩, 0x5555557592d0⟩] := by
  rintro ⟨bytes, hsave, hload⟩
  obtain ⟨loaded, hrun, hvalues⟩ := hload []
  obtain ⟨loaded', hrun', hsaved⟩ := loadDataItems_save _ hsave []
  obtain rfl : loaded = loaded' := congrArg Prod.fst (Except.ok.inj (hrun.symm.trans hrun'))
  exact absurd (hsaved.symm.trans hvalues) (by decide)

end SimpleVm.DataItem
