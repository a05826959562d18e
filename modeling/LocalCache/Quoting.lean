import Mathlib.Data.List.Basic

/-!
# Quoted words

A word between two quotes, in which every quote of its own is doubled. `readQuoted` reads it back
and leaves what follows (`readQuoted_quoted`). A word with a letter that ends the text is not read.
-/

namespace LocalCache

variable {α : Type*} [DecidableEq α] (quote stop : α)

/-- The letters of a word with its quotes doubled. -/
def doubled (word : List α) : List α :=
  word.flatMap fun a => if a = quote then [quote, quote] else [a]

def quoted (word : List α) : List α := quote :: (doubled quote word ++ [quote])

/-- The rest of a quoted word, up to a quote that no other follows, and what is behind it. -/
def readDoubled : List α → Option (List α × List α)
  | [] => none
  | [a] => if a = quote then some ([], []) else none
  | a :: b :: rest =>
    if a = stop then none
    else if a = quote then
      if b = quote then (readDoubled rest).map fun read => (quote :: read.1, read.2)
      else some ([], b :: rest)
    else (readDoubled (b :: rest)).map fun read => (a :: read.1, read.2)

def readQuoted : List α → Option (List α × List α)
  | [] => none
  | a :: rest => if a = quote then readDoubled quote stop rest else none

variable {quote stop}

theorem readDoubled_doubled (hstop : quote ≠ stop) {rest : List α}
    (hrest : rest.head? ≠ some quote) : ∀ {word : List α}, stop ∉ word →
      readDoubled quote stop (doubled quote word ++ quote :: rest) = some (word, rest)
  | [], _ => by
    cases rest with
    | nil => simp [doubled, readDoubled]
    | cons b rest =>
      have hb : b ≠ quote := fun h => hrest (by simp [h])
      simp [doubled, readDoubled, hstop, hb]
  | a :: word, hword => by
    rw [List.mem_cons, not_or] at hword
    have ih := readDoubled_doubled hstop hrest hword.2
    by_cases haq : a = quote
    · subst haq
      have hcons : doubled a (a :: word) = a :: a :: doubled a word := by simp [doubled]
      rw [hcons, List.cons_append, List.cons_append, readDoubled, if_neg hstop, if_pos rfl,
        if_pos rfl, ih]
      rfl
    · have hcons : doubled quote (a :: word) = a :: doubled quote word := by simp [doubled, haq]
      obtain ⟨b, more, hmore⟩ : ∃ b more, doubled quote word ++ quote :: rest = b :: more :=
        List.exists_cons_of_ne_nil (by simp)
      rw [hcons, List.cons_append, hmore, readDoubled, if_neg (Ne.symm hword.1), if_neg haq,
        ← hmore, ih]
      rfl

/-- A quoted word is read back, whatever follows it but a quote. -/
theorem readQuoted_quoted (hstop : quote ≠ stop) {word rest : List α} (hword : stop ∉ word)
    (hrest : rest.head? ≠ some quote) :
    readQuoted quote stop (quoted quote word ++ rest) = some (word, rest) := by
  rw [quoted, List.cons_append, List.append_assoc, List.singleton_append, readQuoted, if_pos rfl]
  exact readDoubled_doubled hstop hrest hword

end LocalCache
