import Mathlib.Algebra.Order.BigOperators.Group.List
import Mathlib.Algebra.Ring.Nat
import Mathlib.Data.List.Basic

/-! How a shell reads a command: it splits the text into words at unquoted blanks, takes the quotes off and finds
the operators. An expansion is marked in its word and not carried out.

A text of words with one blank behind each is read as these words if and only if every word is `Ordinary`. -/

namespace Shell

/-- What an unquoted character does. -/
inductive CharClass where
  | literal
  /-- Begins a comment where no word has begun. -/
  | hash
  /-- Stands for a directory where no word has begun. -/
  | tilde
  | blank
  | newline
  | operator
  | quote
  | dquote
  | escape
  /-- Begins an expansion, in double quotes too. -/
  | expand
  /-- Makes a word stand for the files it matches. -/
  | pattern
deriving DecidableEq

/-- The characters that a word may have behind its first. -/
def CharClass.Inside (k : CharClass) : Prop := k = .literal ∨ k = .hash ∨ k = .tilde
deriving Decidable

structure Alphabet (α : Type) where
  cls : α → CharClass
  letter : α → Bool
  digit : α → Bool
  equals : α → Bool

inductive Piece (α : Type) where
  | lit (c : α)
  | quoted (c : α)
  /-- A character that stands for something else. -/
  | special (c : α)
deriving DecidableEq

variable {α : Type}

def Piece.char? : Piece α → Option α
  | .lit c => some c
  | .quoted c => some c
  | .special _ => none

abbrev Word (α : Type) := List (Piece α)

/-- What a word stands for, when that does not depend on variables or files. -/
def Word.text (w : Word α) : Option (List α) :=
  if w.all (·.char?.isSome) then some (w.filterMap Piece.char?) else none

inductive Token (α : Type) where
  | word (w : Word α)
  | op (c : α)
deriving DecidableEq

inductive Place (α : Type) where
  | gap
  | word (w : Word α)
  /-- Behind an escape, which may stand before a word. -/
  | escaped (w : Option (Word α))
  | single (w : Word α)
  | double (w : Word α)
  | doubleEscaped (w : Word α) (escape : α)
  | comment
deriving DecidableEq

structure Reading (α : Type) where
  done : List (Token α)
  place : Place α
deriving DecidableEq

namespace Alphabet
variable (A : Alphabet α)

def step (s : Reading α) (c : α) : Reading α :=
  match s.place with
  | .gap =>
    match A.cls c with
    | .literal => ⟨s.done, .word [.lit c]⟩
    | .expand | .pattern | .tilde => ⟨s.done, .word [.special c]⟩
    | .blank => ⟨s.done, .gap⟩
    | .newline | .operator => ⟨s.done ++ [.op c], .gap⟩
    | .quote => ⟨s.done, .single []⟩
    | .dquote => ⟨s.done, .double []⟩
    | .escape => ⟨s.done, .escaped none⟩
    | .hash => ⟨s.done, .comment⟩
  | .word w =>
    match A.cls c with
    | .literal | .hash | .tilde => ⟨s.done, .word (w ++ [.lit c])⟩
    | .expand | .pattern => ⟨s.done, .word (w ++ [.special c])⟩
    | .blank => ⟨s.done ++ [.word w], .gap⟩
    | .newline | .operator => ⟨s.done ++ [.word w, .op c], .gap⟩
    | .quote => ⟨s.done, .single w⟩
    | .dquote => ⟨s.done, .double w⟩
    | .escape => ⟨s.done, .escaped (some w)⟩
  | .escaped w =>
    match A.cls c, w with
    -- an escaped newline joins two lines
    | .newline, none => ⟨s.done, .gap⟩
    | .newline, some w => ⟨s.done, .word w⟩
    | _, w => ⟨s.done, .word (w.getD [] ++ [.quoted c])⟩
  | .single w =>
    if A.cls c = .quote then ⟨s.done, .word w⟩ else ⟨s.done, .single (w ++ [.quoted c])⟩
  | .double w =>
    match A.cls c with
    | .dquote => ⟨s.done, .word w⟩
    | .escape => ⟨s.done, .doubleEscaped w c⟩
    | .expand => ⟨s.done, .double (w ++ [.special c])⟩
    | _ => ⟨s.done, .double (w ++ [.quoted c])⟩
  | .doubleEscaped w escape =>
    match A.cls c with
    | .newline => ⟨s.done, .double w⟩
    | .expand | .dquote | .escape => ⟨s.done, .double (w ++ [.quoted c])⟩
    | _ => ⟨s.done, .double (w ++ [.quoted escape, .quoted c])⟩
  | .comment => if A.cls c = .newline then ⟨s.done ++ [.op c], .gap⟩ else s

def run (s : Reading α) (l : List α) : Reading α := l.foldl A.step s

end Alphabet

/-- The tokens at the end of the text, `none` inside quotes. -/
def Reading.finish (s : Reading α) : Option (List (Token α)) :=
  match s.place with
  | .gap | .comment => some s.done
  | .word w => some (s.done ++ [.word w])
  | .escaped _ | .single _ | .double _ | .doubleEscaped .. => none

def Alphabet.read (A : Alphabet α) (l : List α) : Option (List (Token α)) := (A.run ⟨[], .gap⟩ l).finish

/-- A name, and the sign behind it, in a word that has begun. -/
def Alphabet.namesValue (A : Alphabet α) : Word α → Bool
  | .lit c :: w => A.equals c || (A.letter c || A.digit c) && A.namesValue w
  | _ => false

/-- An assignment, when it stands before the words of the command. -/
def Alphabet.assigns (A : Alphabet α) : Word α → Bool
  | .lit c :: w => A.letter c && A.namesValue w
  | _ => false

def Token.word? : Token α → Option (Word α)
  | .word w => some w
  | .op _ => none

/-- A command without operators: the assignments in front and the words. -/
def Alphabet.simpleCommand (A : Alphabet α) (tokens : List (Token α)) : Option (List (Word α) × List (Word α)) :=
  if tokens.all (·.word?.isSome) then
    let words := tokens.filterMap Token.word?
    some (words.takeWhile A.assigns, words.dropWhile A.assigns)
  else none

/-- The words with one blank behind each. -/
def joined (b : α) (args : List (List α)) : List α := args.flatMap (· ++ [b])

/-- What a word must be to be read as it is. -/
def Alphabet.Ordinary (A : Alphabet α) (arg : List α) : Prop :=
  arg.head?.map A.cls = some .literal ∧ ∀ c ∈ arg, (A.cls c).Inside

/-! ### What a character can add

Every character adds at most one to the weight of what was read. A text that is read in full, word for word,
adds one with each of its characters. -/

def Word.letters (w : Word α) : Nat := (w.filterMap Piece.char?).length

/-- The characters of a word and one for its end. -/
def Token.weight : Token α → Nat
  | .word w => Word.letters w + 1
  | .op _ => 0

def Place.weight : Place α → Nat
  | .gap | .comment => 0
  | .word w | .single w | .double w => Word.letters w
  | .escaped w => Word.letters (w.getD [])
  | .doubleEscaped w _ => Word.letters w + 1

def Reading.weight (s : Reading α) : Nat := (s.done.map Token.weight).sum + s.place.weight

section Weight
variable (A : Alphabet α) (s : Reading α) (c : α) (w : Word α)

@[simp] theorem letters_nil : Word.letters ([] : Word α) = 0 := rfl

@[simp] theorem letters_append (v : Word α) : Word.letters (w ++ v) = Word.letters w + Word.letters v := by
  simp [Word.letters]

@[simp] theorem letters_lit : Word.letters [Piece.lit c] = 1 := rfl

@[simp] theorem letters_quoted : Word.letters [Piece.quoted c] = 1 := rfl

@[simp] theorem letters_special : Word.letters [Piece.special c] = 0 := rfl

theorem letters_escaped (e : α) : Word.letters [Piece.quoted e, Piece.quoted c] = 2 := rfl

theorem step_weight : (A.step s c).weight ≤ s.weight + 1 := by
  obtain ⟨done, place⟩ := s
  cases place with
  | gap => cases h : A.cls c <;> simp [Alphabet.step, h, Reading.weight, Place.weight, Token.weight]
  | word w =>
    cases h : A.cls c <;> simp [Alphabet.step, h, Reading.weight, Place.weight, Token.weight] <;> omega
  | escaped w =>
    cases h : A.cls c <;> cases w <;> simp [Alphabet.step, h, Reading.weight, Place.weight] <;> omega
  | single w =>
    by_cases h : A.cls c = .quote
    · simp [Alphabet.step, h, Reading.weight, Place.weight]
    · simp [Alphabet.step, h, Reading.weight, Place.weight, Nat.add_assoc]
  | double w =>
    cases h : A.cls c <;> simp [Alphabet.step, h, Reading.weight, Place.weight] <;> omega
  | doubleEscaped w e =>
    cases h : A.cls c <;> simp [Alphabet.step, h, Reading.weight, Place.weight, letters_escaped] <;> omega
  | comment =>
    by_cases h : A.cls c = .newline <;> simp [Alphabet.step, h, Reading.weight, Place.weight, Token.weight]

theorem run_weight (l : List α) : (A.run s l).weight ≤ s.weight + l.length := by
  induction l generalizing s with
  | nil => exact Nat.le_refl _
  | cons c l ih =>
    have hrest := ih (A.step s c)
    have hstep := step_weight A s c
    simp only [Alphabet.run, List.foldl_cons, List.length_cons] at hrest ⊢
    omega

/-- A text that adds one with each of its characters adds one with the first, and with each of the others. -/
theorem run_tight_cons {l : List α} (h : (A.run s (c :: l)).weight = s.weight + (c :: l).length) :
    (A.step s c).weight = s.weight + 1 ∧ (A.run (A.step s c) l).weight = (A.step s c).weight + l.length := by
  have hrest := run_weight A (A.step s c) l
  have hstep := step_weight A s c
  simp only [Alphabet.run, List.foldl_cons, List.length_cons] at h hrest ⊢
  omega

end Weight

/-! ### Words that are read as they are -/

section Words
variable {A : Alphabet α} {s : Reading α} {b c : α} {l : List α} (done : List (Token α)) (w : Word α)

theorem run_append (l l' : List α) : A.run s (l ++ l') = A.run (A.run s l) l' := List.foldl_append

theorem run_cons (c : α) (l : List α) : A.run s (c :: l) = A.run (A.step s c) l := rfl

theorem joined_cons (b : α) (arg : List α) (args : List (List α)) :
    joined b (arg :: args) = arg ++ [b] ++ joined b args :=
  List.flatMap_cons

theorem step_gap_literal (h : A.cls c = .literal) : A.step ⟨done, .gap⟩ c = ⟨done, .word [.lit c]⟩ := by
  simp [Alphabet.step, h]

theorem step_word_inside (h : (A.cls c).Inside) : A.step ⟨done, .word w⟩ c = ⟨done, .word (w ++ [.lit c])⟩ := by
  rcases h with h | h | h <;> simp [Alphabet.step, h]

theorem step_word_blank (h : A.cls c = .blank) : A.step ⟨done, .word w⟩ c = ⟨done ++ [.word w], .gap⟩ := by
  simp [Alphabet.step, h]

theorem run_word_inside (h : ∀ c ∈ l, (A.cls c).Inside) :
    A.run ⟨done, .word w⟩ l = ⟨done, .word (w ++ l.map .lit)⟩ := by
  induction l generalizing w with
  | nil => simp [Alphabet.run]
  | cons c l ih =>
    rw [run_cons, step_word_inside done w (h c List.mem_cons_self),
      ih (w ++ [Piece.lit c]) fun d hd => h d (List.mem_cons_of_mem c hd), List.map_cons, List.append_assoc,
      List.singleton_append]

/-- An ordinary word is read as it is, and the blank behind it ends it. -/
theorem run_ordinary (hb : A.cls b = .blank) {arg : List α} (h : A.Ordinary arg) :
    A.run ⟨done, .gap⟩ (arg ++ [b]) = ⟨done ++ [.word (arg.map .lit)], .gap⟩ := by
  obtain ⟨hhead, hinside⟩ := h
  cases arg with
  | nil => cases hhead
  | cons c l =>
    have hc : A.cls c = .literal := Option.some.inj hhead
    rw [run_append, run_cons c l, step_gap_literal done hc,
      run_word_inside done [Piece.lit c] fun d hd => hinside d (List.mem_cons_of_mem c hd)]
    exact step_word_blank done _ hb

theorem run_joined (hb : A.cls b = .blank) {args : List (List α)} (h : ∀ arg ∈ args, A.Ordinary arg) :
    A.run ⟨done, .gap⟩ (joined b args) = ⟨done ++ args.map fun arg => .word (arg.map .lit), .gap⟩ := by
  induction args generalizing done with
  | nil => simp [joined, Alphabet.run]
  | cons arg args ih =>
    rw [joined_cons, run_append, run_ordinary done hb (h arg List.mem_cons_self),
      ih (done ++ [Token.word (arg.map Piece.lit)]) fun arg harg => h arg (List.mem_cons_of_mem _ harg), List.map_cons,
      List.append_assoc, List.singleton_append]

/-! ### No other words are -/

theorem done_step (s : Reading α) (c : α) : s.done <+: (A.step s c).done := by
  obtain ⟨done, place⟩ := s
  cases place with
  | gap => cases h : A.cls c <;> simp [Alphabet.step, h]
  | word w => cases h : A.cls c <;> simp [Alphabet.step, h]
  | escaped w => cases h : A.cls c <;> cases w <;> simp [Alphabet.step, h]
  | single w => by_cases h : A.cls c = .quote <;> simp [Alphabet.step, h]
  | double w => cases h : A.cls c <;> simp [Alphabet.step, h]
  | doubleEscaped w e => cases h : A.cls c <;> simp [Alphabet.step, h]
  | comment => by_cases h : A.cls c = .newline <;> simp [Alphabet.step, h]

theorem done_run (s : Reading α) (l : List α) : s.done <+: (A.run s l).done := by
  induction l generalizing s with
  | nil => exact List.prefix_rfl
  | cons c l ih => exact (done_step s c).trans (ih (A.step s c))

/-- Between two words only a literal character begins one without loss. -/
theorem step_gap_tight (h : (A.step ⟨done, .gap⟩ c).weight = (⟨done, .gap⟩ : Reading α).weight + 1) :
    A.cls c = .literal := by
  cases hc : A.cls c <;> simp [Alphabet.step, hc, Reading.weight, Place.weight, Token.weight] at h ⊢

/-- In a word, a character that loses nothing belongs to it or ends it. -/
theorem step_word_tight (h : (A.step ⟨done, .word w⟩ c).weight = (⟨done, .word w⟩ : Reading α).weight + 1)
    (hops : ∀ t ∈ (A.step ⟨done, .word w⟩ c).done, t.word?.isSome) : (A.cls c).Inside ∨ A.cls c = .blank := by
  unfold CharClass.Inside
  cases hc : A.cls c with
  | newline => exact absurd (hops (.op c) (by simp [Alphabet.step, hc])) (by simp [Token.word?])
  | operator => exact absurd (hops (.op c) (by simp [Alphabet.step, hc])) (by simp [Token.word?])
  | _ => simp [Alphabet.step, hc, Reading.weight, Place.weight] at h ⊢

/-- A text that is read without loss has as many blanks as words, and no other character of meaning. -/
theorem run_tight (s : Reading α) (hs : s.place = .gap ∨ ∃ w, s.place = .word w) (l : List α)
    (h : (A.run s l).weight = s.weight + l.length) (hops : ∀ t ∈ (A.run s l).done, t.word?.isSome) :
    (∀ c ∈ l, (A.cls c).Inside ∨ A.cls c = .blank) ∧
      (A.run s l).done.length = s.done.length + l.countP fun c => A.cls c = .blank := by
  induction l generalizing s with
  | nil => exact ⟨by simp, rfl⟩
  | cons c l ih =>
    obtain ⟨hstep, hrest⟩ := run_tight_cons A s c h
    have hdone : ∀ t ∈ (A.step s c).done, t.word?.isSome := fun t ht => hops t ((done_run (A.step s c) l).subset ht)
    rw [List.forall_mem_cons]
    obtain ⟨done, place⟩ := s
    rcases hs with rfl | ⟨w, rfl⟩
    · have hc := step_gap_tight done hstep
      have hnext := step_gap_literal done hc
      obtain ⟨hl, hlen⟩ := ih _ (.inr ⟨_, congrArg Reading.place hnext⟩) hrest hops
      refine ⟨⟨.inl (.inl hc), hl⟩, ?_⟩
      rw [run_cons, hlen, hnext, List.countP_cons_of_neg (by simp [hc])]
    · rcases step_word_tight done w hstep hdone with hc | hc
      · have hnext := step_word_inside done w hc
        obtain ⟨hl, hlen⟩ := ih _ (.inr ⟨_, congrArg Reading.place hnext⟩) hrest hops
        refine ⟨⟨.inl hc, hl⟩, ?_⟩
        rw [run_cons, hlen, hnext, List.countP_cons_of_neg (by rcases hc with hc | hc | hc <;> simp [hc])]
      · have hnext := step_word_blank done w hc
        obtain ⟨hl, hlen⟩ := ih _ (.inl (congrArg Reading.place hnext)) hrest hops
        refine ⟨⟨.inr hc, hl⟩, ?_⟩
        rw [run_cons, hlen, hnext, List.countP_cons_of_pos (by simp [hc])]
        simp only [List.length_append, List.length_singleton]
        omega

theorem run_tight_append {s : Reading α} {l' : List α}
    (h : (A.run s (l ++ l')).weight = s.weight + (l ++ l').length) :
    (A.run (A.run s l) l').weight = (A.run s l).weight + l'.length := by
  have hfirst := run_weight A s l
  have hrest := run_weight A (A.run s l) l'
  rw [run_append, List.length_append] at h
  omega

theorem length_le_blanks (hb : A.cls b = .blank) (args : List (List α)) :
    args.length ≤ (joined b args).countP fun c => A.cls c = .blank := by
  induction args with
  | nil => exact Nat.le_refl _
  | cons arg args ih =>
    have hone : [b].countP (fun c => A.cls c = .blank) = 1 := List.countP_cons_of_pos (by simp [hb])
    rw [joined_cons, List.countP_append, List.countP_append, hone, List.length_cons]
    omega

/-- As many blanks as words: no word has one in it. -/
theorem ne_blank_of_count (hb : A.cls b = .blank) {args : List (List α)}
    (h : (joined b args).countP (fun c => A.cls c = .blank) = args.length) :
    ∀ arg ∈ args, ∀ c ∈ arg, A.cls c ≠ .blank := by
  induction args with
  | nil => simp
  | cons arg args ih =>
    have hone : [b].countP (fun c => A.cls c = .blank) = 1 := List.countP_cons_of_pos (by simp [hb])
    have hrest := length_le_blanks hb args
    rw [joined_cons, List.countP_append, List.countP_append, hone, List.length_cons] at h
    rw [List.forall_mem_cons]
    refine ⟨fun c hc hcls => ?_, ih (by omega)⟩
    have hnone : arg.countP (fun c => A.cls c = .blank) = 0 := by omega
    exact absurd hcls (by simpa using List.countP_eq_zero.mp hnone c hc)

theorem ordinary_of_tight (hb : A.cls b = .blank) {args : List (List α)}
    (hinside : ∀ arg ∈ args, ∀ c ∈ arg, (A.cls c).Inside)
    (h : (A.run ⟨done, .gap⟩ (joined b args)).weight =
      (⟨done, .gap⟩ : Reading α).weight + (joined b args).length) :
    ∀ arg ∈ args, A.Ordinary arg := by
  induction args generalizing done with
  | nil => simp
  | cons arg args ih =>
    have harg : A.Ordinary arg := by
      cases arg with
      | nil =>
        -- the blank behind an empty word ends no word
        have hlit := step_gap_tight done (run_tight_cons A ⟨done, .gap⟩ b h).1
        rw [hb] at hlit
        cases hlit
      | cons c l =>
        have hlit := step_gap_tight done (run_tight_cons A ⟨done, .gap⟩ c h).1
        exact ⟨congrArg some hlit, hinside _ List.mem_cons_self⟩
    rw [joined_cons] at h
    have hrest := run_tight_append h
    rw [run_ordinary done hb harg] at hrest
    rw [List.forall_mem_cons]
    exact ⟨harg, ih _ (fun arg harg => hinside arg (List.mem_cons_of_mem _ harg)) hrest⟩

/-! ### The end of the text -/

theorem text_eq_some {w : Word α} {t : List α} (h : w.text = some t) :
    (∀ x ∈ w, x.char?.isSome) ∧ w.filterMap Piece.char? = t := by
  unfold Word.text at h
  split at h
  · rename_i hall
    exact ⟨List.all_eq_true.mp hall, Option.some.inj h⟩
  · cases h

theorem weight_words {ws : List (Word α)} {args : List (List α)} (b : α) (h : ws.map Word.text = args.map some) :
    ((ws.map Token.word).map Token.weight).sum = (joined b args).length := by
  induction args generalizing ws with
  | nil => simp [List.map_eq_nil_iff.mp h, joined]
  | cons arg args ih =>
    cases ws with
    | nil => cases h
    | cons w ws =>
      obtain ⟨hw, hws⟩ := List.cons.inj h
      have hletters : Word.letters w = arg.length := congrArg List.length (text_eq_some hw).2
      rw [joined_cons, List.map_cons, List.map_cons, List.sum_cons, ih hws, List.length_append, List.length_append,
        Token.weight, hletters, List.length_singleton]

theorem cls_of_escaped {s : Reading α} {w : Option (Word α)} (h : (A.step s c).place = .escaped w) :
    A.cls c = .escape := by
  obtain ⟨done, place⟩ := s
  cases place with
  | gap => cases hc : A.cls c <;> simp [Alphabet.step, hc] at h ⊢
  | word v => cases hc : A.cls c <;> simp [Alphabet.step, hc] at h ⊢
  | escaped v => cases hc : A.cls c <;> cases v <;> simp [Alphabet.step, hc] at h ⊢
  | single v => by_cases hc : A.cls c = .quote <;> simp [Alphabet.step, hc] at h
  | double v => cases hc : A.cls c <;> simp [Alphabet.step, hc] at h ⊢
  | doubleEscaped v e => cases hc : A.cls c <;> simp [Alphabet.step, hc] at h ⊢
  | comment => by_cases hc : A.cls c = .newline <;> simp [Alphabet.step, hc] at h

/-- A blank that leaves a word open was escaped. -/
theorem escaped_of_blank (hb : A.cls b = .blank) {s : Reading α} (h : (A.step s b).place = .word w) :
    ∃ v, s.place = .escaped v ∧ w = v.getD [] ++ [.quoted b] := by
  obtain ⟨done, place⟩ := s
  cases place with
  | escaped v => exact ⟨v, rfl, by simpa [Alphabet.step, hb] using h.symm⟩
  | _ => simp [Alphabet.step, hb] at h

/-- The last word of the text ends before the text does. -/
theorem place_ne_word (hb : A.cls b = .blank) {args : List (List α)} {ws : List (Word α)}
    (hread : (A.run ⟨done, .gap⟩ (joined b args)).finish = some (done ++ ws.map .word))
    (htext : ws.map Word.text = args.map some) : (A.run ⟨done, .gap⟩ (joined b args)).place ≠ .word w := by
  intro hplace
  rcases List.eq_nil_or_concat args with rfl | ⟨init, arg, rfl⟩
  · cases hplace
  rw [List.concat_eq_append] at *
  have hjoined : joined b (init ++ [arg]) = joined b init ++ arg ++ [b] := by simp [joined]
  rw [hjoined, run_append] at hread hplace
  obtain ⟨v, hv, rfl⟩ := escaped_of_blank w hb hplace
  -- the word left open is the last one, so its text, the last argument, ends with the blank
  have hlast : Word.text (v.getD [] ++ [.quoted b]) = some arg := by
    have hfinish : (A.run (A.run ⟨done, .gap⟩ (joined b init ++ arg)) [b]).done ++
        [Token.word (v.getD [] ++ [.quoted b])] = done ++ ws.map .word := by
      unfold Reading.finish at hread
      rw [hplace] at hread
      exact Option.some.inj hread
    rcases List.eq_nil_or_concat ws with rfl | ⟨ws', w', rfl⟩
    · simp at htext
    · rw [List.concat_eq_append, List.map_append, ← List.append_assoc] at hfinish
      rw [List.concat_eq_append, List.map_append, List.map_append] at htext
      have hw := (List.append_inj' hfinish rfl).2
      have ht := (List.append_inj' htext rfl).2
      simp only [List.map_cons, List.map_nil, List.cons.injEq, and_true, Token.word.injEq] at hw ht
      rw [hw]
      exact ht
  have hend := (text_eq_some hlast).2
  rw [List.filterMap_append, show [Piece.quoted b].filterMap Piece.char? = [b] from rfl] at hend
  rw [← hend, ← List.append_assoc, run_append] at hv
  have hescape := cls_of_escaped hv
  rw [hb] at hescape
  cases hescape

/-- Words with one blank behind each are read as these words when each is ordinary, and never otherwise. -/
theorem read_joined_iff (hb : A.cls b = .blank) (hdone : ∀ t ∈ done, t.word?.isSome) (args : List (List α)) :
    (∃ ws : List (Word α), (A.run ⟨done, .gap⟩ (joined b args)).finish = some (done ++ ws.map .word) ∧
      ws.map Word.text = args.map some) ↔ ∀ arg ∈ args, A.Ordinary arg := by
  refine ⟨fun ⟨ws, hread, htext⟩ => ?_, fun h => ?_⟩
  · have htokens : (A.run ⟨done, .gap⟩ (joined b args)).done = done ++ ws.map .word ∧
        (A.run ⟨done, .gap⟩ (joined b args)).place.weight = 0 := by
      have hplace := fun w => place_ne_word done w hb hread htext
      unfold Reading.finish at hread
      split at hread
      · rename_i hgap
        exact ⟨Option.some.inj hread, by rw [hgap]; rfl⟩
      · rename_i hcomment
        exact ⟨Option.some.inj hread, by rw [hcomment]; rfl⟩
      · rename_i w hw
        exact absurd hw (hplace w)
      all_goals cases hread
    have htight : (A.run ⟨done, .gap⟩ (joined b args)).weight =
        (⟨done, .gap⟩ : Reading α).weight + (joined b args).length := by
      unfold Reading.weight
      rw [htokens.1, htokens.2, List.map_append, List.sum_append, weight_words b htext]
      rfl
    have hops : ∀ t ∈ (A.run ⟨done, .gap⟩ (joined b args)).done, t.word?.isSome := by
      rw [htokens.1]
      intro t ht
      rcases List.mem_append.mp ht with ht | ht
      · exact hdone t ht
      · obtain ⟨w, -, rfl⟩ := List.mem_map.mp ht
        rfl
    obtain ⟨hchars, hlen⟩ := run_tight ⟨done, .gap⟩ (.inl rfl) _ htight hops
    have hcount : ws.length = args.length := by simpa using congrArg List.length htext
    have hblanks : (joined b args).countP (fun c => A.cls c = .blank) = args.length := by
      rw [htokens.1, List.length_append, List.length_map, hcount] at hlen
      exact (Nat.add_left_cancel hlen).symm
    refine ordinary_of_tight done hb (fun arg harg c hc => ?_) htight
    have hmem : c ∈ joined b args := List.mem_flatMap.mpr ⟨arg, harg, List.mem_append_left _ hc⟩
    exact (hchars c hmem).resolve_right (ne_blank_of_count hb hblanks arg harg c hc)
  · refine ⟨args.map (·.map .lit), ?_, ?_⟩
    · rw [run_joined done hb h, List.map_map]
      rfl
    · rw [List.map_map]
      refine List.map_congr_left fun arg _ => ?_
      simp [Word.text, Piece.char?, Function.comp_def, List.filterMap_map]

/-! ### The assignments in front of a command -/

theorem simpleCommand_words (words : List (Word α)) :
    A.simpleCommand (words.map .word) = some (words.takeWhile A.assigns, words.dropWhile A.assigns) := by
  have hall : (words.map Token.word).all (·.word?.isSome) = true := by simp [Token.word?]
  have hwords : (words.map Token.word).filterMap Token.word? = words := by
    simp [List.filterMap_map, Function.comp_def, Token.word?]
  rw [Alphabet.simpleCommand, if_pos hall, hwords]

theorem eq_words_of_simpleCommand {tokens : List (Token α)} {front words : List (Word α)}
    (h : A.simpleCommand tokens = some (front, words)) : tokens = (front ++ words).map .word := by
  have hall : ∀ t ∈ tokens, t.word?.isSome := by
    unfold Alphabet.simpleCommand at h
    split at h
    · rename_i hall
      exact List.all_eq_true.mp hall
    · cases h
  obtain ⟨ws, rfl⟩ : ∃ ws : List (Word α), tokens = ws.map .word := by
    refine ⟨tokens.filterMap Token.word?, ?_⟩
    clear h
    induction tokens with
    | nil => rfl
    | cons t tokens ih =>
      have hrest := ih fun t ht => hall t (List.mem_cons_of_mem _ ht)
      cases t with
      | word w => exact congrArg (Token.word w :: ·) hrest
      | op c => exact absurd (hall _ List.mem_cons_self) (by simp [Token.word?])
  rw [simpleCommand_words] at h
  obtain ⟨rfl, rfl⟩ := Prod.mk.inj (Option.some.inj h)
  rw [List.takeWhile_append_dropWhile]

/-- One assignment stands in front, when the first word behind it is none. -/
theorem simpleCommand_iff {tokens : List (Token α)} {words : List (Word α)} (hw : A.assigns w) :
    A.simpleCommand tokens = some ([w], words) ↔
      tokens = [.word w] ++ words.map .word ∧ ∀ v ∈ words.head?, ¬A.assigns v := by
  have htake : (w :: words).takeWhile A.assigns = w :: words.takeWhile A.assigns := List.takeWhile_cons_of_pos hw
  have hdrop : (w :: words).dropWhile A.assigns = words.dropWhile A.assigns := List.dropWhile_cons_of_pos hw
  constructor
  · intro h
    have htokens := eq_words_of_simpleCommand h
    refine ⟨htokens, fun v hv hassigns => ?_⟩
    rw [htokens, simpleCommand_words, List.singleton_append, htake] at h
    cases words with
    | nil => cases hv
    | cons u words =>
      obtain rfl := Option.some.inj hv
      rw [List.takeWhile_cons_of_pos hassigns] at h
      cases h
  · rintro ⟨rfl, hhead⟩
    rw [← List.map_singleton, ← List.map_append, simpleCommand_words, List.singleton_append, htake, hdrop]
    cases words with
    | nil => rfl
    | cons u words =>
      have hu := hhead u rfl
      rw [List.takeWhile_cons_of_neg hu, List.dropWhile_cons_of_neg hu]

end Words

end Shell
