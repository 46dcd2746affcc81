import Mathlib.Data.List.Basic

/-!
# Lexing

A lexer in some state takes a lexeme from the front of its input, which makes
the input shorter, and may emit a token. Scanning repeats that to the end of
the input. Rules give the lexeme as the longest match of a regular expression,
and the earliest rule wins a tie.
-/

universe u v w

/-! ## Rules -/

inductive Regex (α : Type u) where
  | never
  | empty
  | one (test : α → Bool)
  | seq (r s : Regex α)
  | alt (r s : Regex α)
  | star (r : Regex α)

namespace Regex

variable {α : Type u}

def opt (r : Regex α) : Regex α := alt r empty

def plus (r : Regex α) : Regex α := seq r (star r)

def nullable : Regex α → Bool
  | never => false
  | empty => true
  | one _ => false
  | seq r s => r.nullable && s.nullable
  | alt r s => r.nullable || s.nullable
  | star _ => true

/-- A sequence that is known to fail when one part does. -/
def seqNever : Regex α → Regex α → Regex α
  | never, _ => never
  | empty, s => s
  | r, s => seq r s

def altNever : Regex α → Regex α → Regex α
  | never, s => s
  | r, never => r
  | r, s => alt r s

def deriv (a : α) : Regex α → Regex α
  | never => never
  | empty => never
  | one test => if test a then empty else never
  | seq r s =>
      if r.nullable then altNever (seqNever (deriv a r) s) (deriv a s)
      else seqNever (deriv a r) s
  | alt r s => altNever (deriv a r) (deriv a s)
  | star r => seqNever (deriv a r) (star r)

/-- The length of the longest match at the front of the input. -/
def longest : Regex α → List α → Option ℕ
  | never, _ => none
  | r, [] => if r.nullable then some 0 else none
  | r, a :: input =>
      match longest (deriv a r) input with
      | some n => some (n + 1)
      | none => if r.nullable then some 0 else none

@[simp] theorem longest_never (input : List α) : longest never input = none := by
  cases input <;> rfl

theorem longest_cons (r : Regex α) (a : α) (input : List α) :
    longest r (a :: input) =
      match longest (deriv a r) input with
      | some n => some (n + 1)
      | none => if r.nullable then some 0 else none := by
  cases r with
  | never => simp [deriv, nullable]
  | _ => rfl

@[simp] theorem longest_empty (input : List α) : longest empty input = some 0 := by
  cases input with
  | nil => rfl
  | cons a input => simp [longest_cons, deriv, nullable]

/-- What has to follow `w`. -/
def after (r : Regex α) (w : List α) : Regex α := w.foldl (fun r a => deriv a r) r

/-- No symbol to come makes the match longer. -/
def isSettled : Regex α → Bool
  | never => true
  | empty => true
  | _ => false

theorem longest_append {r : Regex α} {w : List α} (h : (r.after w).isSettled) (rest : List α) :
    longest r (w ++ rest) = longest r w := by
  induction w generalizing r with
  | nil =>
      cases r with
      | never => simp
      | empty => simp
      | _ => cases h
  | cons a w ih =>
      rw [List.cons_append, longest_cons, longest_cons, ih h]

end Regex

structure LexRule (α : Type u) (β : Type v) where
  pattern : Regex α
  action : β

/-- The length and the action of the first rule with a longest match. -/
def firstLongest {α : Type u} {β : Type v} : List (LexRule α β) → List α → Option (ℕ × β)
  | [], _ => none
  | rule :: rules, input =>
      match rule.pattern.longest input, firstLongest rules input with
      | some n, some (m, action) =>
          if m ≤ n then some (n, rule.action) else some (m, action)
      | some n, none => some (n, rule.action)
      | none, best => best

theorem firstLongest_append {α : Type u} {β : Type v} {rules : List (LexRule α β)} {w : List α}
    (h : ∀ rule ∈ rules, (rule.pattern.after w).isSettled) (rest : List α) :
    firstLongest rules (w ++ rest) = firstLongest rules w := by
  induction rules with
  | nil => rfl
  | cons rule rules ih =>
      rw [List.forall_mem_cons] at h
      rw [firstLongest, firstLongest, Regex.longest_append h.1, ih h.2]

theorem exists_mem_of_firstLongest {α : Type u} {β : Type v} {rules : List (LexRule α β)}
    {input : List α} {n : ℕ} {action : β} (h : firstLongest rules input = some (n, action)) :
    ∃ rule ∈ rules, rule.pattern.longest input = some n ∧ rule.action = action := by
  induction rules generalizing n action with
  | nil => cases h
  | cons rule rules ih =>
      have hbest {m : ℕ} (h : firstLongest rules input = some (m, action)) :
          ∃ r ∈ rule :: rules, r.pattern.longest input = some m ∧ r.action = action := by
        obtain ⟨r, hr, hrule⟩ := ih h
        exact ⟨r, List.mem_cons_of_mem rule hr, hrule⟩
      rw [firstLongest] at h
      split at h
      · next k m action' hmatch hrest =>
          split at h
          · cases h
            exact ⟨rule, List.mem_cons_self, hmatch, rfl⟩
          · cases h
            exact hbest hrest
      · next hmatch _ =>
          cases h
          exact ⟨rule, List.mem_cons_self, hmatch, rfl⟩
      · exact hbest h

/-- A rule is taken when the rules before it match less and the rules behind
it no more. -/
theorem firstLongest_eq {α : Type u} {β : Type v} {pre post : List (LexRule α β)}
    {rule : LexRule α β} {input : List α} {n : ℕ} (h : rule.pattern.longest input = some n)
    (hpre : ∀ r ∈ pre, ∀ m, r.pattern.longest input = some m → m < n)
    (hpost : ∀ r ∈ post, ∀ m, r.pattern.longest input = some m → m ≤ n) :
    firstLongest (pre ++ rule :: post) input = some (n, rule.action) := by
  induction pre with
  | nil =>
      rw [List.nil_append, firstLongest, h]
      cases hrest : firstLongest post input with
      | none => rfl
      | some best =>
          obtain ⟨m, action⟩ := best
          obtain ⟨r, hr, hmatch, -⟩ := exists_mem_of_firstLongest hrest
          exact if_pos (hpost r hr m hmatch)
  | cons r pre ih =>
      rw [List.forall_mem_cons] at hpre
      rw [List.cons_append, firstLongest, ih hpre.2]
      cases hmatch : r.pattern.longest input with
      | none => rfl
      | some m => exact if_neg (Nat.not_le_of_lt (hpre.1 m hmatch))

/-! ## Lexers -/

/-- One lexeme at the front of the input: the new state, the token if there is
one, and what is left. The first symbol is always part of the lexeme. -/
structure Lexer (α : Type u) (σ : Type v) (τ : Type w) where
  step : σ → α → List α → σ × Option τ × List α
  length_rest_le : ∀ s a input, (step s a input).2.2.length ≤ input.length

namespace Lexer

variable {α : Type u} {σ : Type v} {τ : Type w} (L : Lexer α σ τ)

def scanFor : ℕ → σ → List α → List τ × σ
  | 0, s, _ => ([], s)
  | _ + 1, s, [] => ([], s)
  | n + 1, s, a :: input =>
      let (s', t, rest) := L.step s a input
      let (ts, last) := scanFor n s' rest
      (t.toList ++ ts, last)

/-- There are no more lexemes in an input than symbols. -/
def scan (s : σ) (input : List α) : List τ × σ := L.scanFor input.length s input

theorem scanFor_congr {m n : ℕ} (s : σ) {input : List α} (hm : input.length ≤ m)
    (hn : input.length ≤ n) : L.scanFor m s input = L.scanFor n s input := by
  induction m generalizing n s input with
  | zero =>
      obtain rfl := List.length_eq_zero_iff.mp (Nat.le_zero.mp hm)
      cases n <;> rfl
  | succ m ih =>
      cases input with
      | nil => cases n <;> rfl
      | cons a input =>
          obtain ⟨n, rfl⟩ := Nat.exists_eq_add_of_lt hn
          have hrest := L.length_rest_le s a input
          have hrun := ih (L.step s a input).1 (Nat.le_trans hrest (Nat.le_of_succ_le_succ hm))
            (Nat.le_trans hrest (Nat.le_add_right input.length n))
          simp only [scanFor, hrun]

theorem scanFor_eq {n : ℕ} (s : σ) {input : List α} (hn : input.length ≤ n) :
    L.scanFor n s input = L.scan s input := L.scanFor_congr s hn (Nat.le_refl _)

theorem scan_cons (s : σ) (a : α) (input : List α) :
    L.scan s (a :: input) =
      ((L.step s a input).2.1.toList ++ (L.scan (L.step s a input).1 (L.step s a input).2.2).1,
        (L.scan (L.step s a input).1 (L.step s a input).2.2).2) := by
  rw [← L.scanFor_eq (L.step s a input).1 (L.length_rest_le s a input)]
  rfl

/-- Some lexemes that lead from one state and input to another. -/
inductive Runs : σ → List α → List τ → σ → List α → Prop
  | refl (s input) : Runs s input [] s input
  | head {s a input s' t rest ts last left} (hstep : L.step s a input = (s', t, rest))
      (hrest : Runs s' rest ts last left) : Runs s (a :: input) (t.toList ++ ts) last left

variable {L}

theorem Runs.trans {s s' s'' : σ} {input rest rest' : List α} {ts ts' : List τ}
    (h : L.Runs s input ts s' rest) (h' : L.Runs s' rest ts' s'' rest') :
    L.Runs s input (ts ++ ts') s'' rest' := by
  induction h with
  | refl s input => exact h'
  | head hstep _ ih =>
      rw [List.append_assoc]
      exact .head hstep (ih h')

theorem Runs.scan {s s' : σ} {input rest : List α} {ts : List τ} (h : L.Runs s input ts s' rest) :
    L.scan s input = (ts ++ (L.scan s' rest).1, (L.scan s' rest).2) := by
  induction h with
  | refl s input => rfl
  | head hstep _ ih => rw [L.scan_cons, hstep, ih, List.append_assoc]

end Lexer
