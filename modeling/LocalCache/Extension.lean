import LocalCache.Canonical

/-!
# Bytes after a payload, and bytes that are missing

`Extends tail d d'` relates two cursors : the second has `tail` after its input, and may claim at
least as many elements. Whatever is read from the first is read from the second, with the same
value, and the cursors stay so related (`StateExcept.Stable`). So bytes appended to a payload change
neither its value nor where it ends, whatever the schema. It follows that no shorter start of a
payload is accepted : what was read from it would be read from the whole (`fromSlice_append`).
-/

namespace LocalCache

universe u

open StateExcept

/-- The second cursor is the first with `tail` after its input. -/
structure Extends (tail : List UInt8) (d d' : Decoder) : Prop where
  input : d'.input = d.input ++ tail
  depth : d'.depth = d.depth
  budget : d.budget ≤ d'.budget

/-! ## The primitives -/

namespace Decoder

variable {tail : List UInt8}

theorem stable_take (n : ℕ) : Stable (Extends tail) (take n) := by
  intro d d' bs r hext h
  unfold take at h
  split_ifs at h with hn
  obtain ⟨rfl, rfl⟩ := Prod.mk.inj (Except.ok.inj h)
  have hn' : n ≤ d'.input.length := by
    rw [hext.input, List.length_append]
    omega
  refine ⟨{ d' with input := d'.input.drop n }, ?_, ?_, hext.depth, hext.budget⟩
  · rw [take, if_pos hn', hext.input, List.take_append_of_le_length hn]
  · show d'.input.drop n = _
    rw [hext.input, List.drop_append_of_le_length hn]

theorem stable_byte : Stable (Extends tail) byte := by
  intro d d' b r hext h
  unfold byte at h
  split at h
  · exact absurd h (by simp)
  · next b' bs hin =>
    obtain ⟨rfl, rfl⟩ := Prod.mk.inj (Except.ok.inj h)
    have hin' : d'.input = b' :: (bs ++ tail) := by rw [hext.input, hin, List.cons_append]
    exact ⟨{ d' with input := bs ++ tail }, by rw [byte, hin'], rfl, hext.depth, hext.budget⟩

theorem stable_length : Stable (Extends tail) length := by
  refine (stable_take 8).bind fun bs => ?_
  dsimp only
  split_ifs
  · exact .pure _
  · exact .fail _

/-- A count may be larger where more bytes follow. -/
theorem stable_count : Stable (Extends tail) count := by
  refine stable_length.bind fun n => ?_
  intro d d' m r hext h
  dsimp only at h
  split_ifs at h with hinput hbudget
  obtain ⟨rfl, rfl⟩ := Prod.mk.inj (Except.ok.inj h)
  have hinput' : ¬n > d'.input.length := by
    rw [hext.input, List.length_append]
    omega
  have hbudget' : ¬n > d'.budget := by
    have := hext.budget
    omega
  refine ⟨{ d' with budget := d'.budget - n }, ?_, hext.input, hext.depth, ?_⟩
  · dsimp only
    rw [if_neg hinput', if_neg hbudget']
  · exact Nat.sub_le_sub_right hext.budget n

theorem stable_byteBuf : Stable (Extends tail) byteBuf :=
  stable_length.bind stable_take

theorem stable_str : Stable (Extends tail) str := by
  refine stable_byteBuf.bind fun bs => ?_
  cases fromUtf8 bs with
  | none => exact .fail _
  | some text => exact .pure text

theorem stable_char : Stable (Extends tail) char := by
  refine stable_byte.bind fun first => ?_
  dsimp only
  split_ifs
  · exact .fail _
  · refine (stable_take _).bind fun rest => ?_
    cases fromUtf8 (first :: rest) with
    | none => exact .fail _
    | some text =>
      dsimp only
      cases text.toList with
      | nil => exact .fail _
      | cons c cs => exact .pure c

theorem stable_nested {α : Type} {limit : ℕ} {x : DecodeM α} (hx : Stable (Extends tail) x) :
    Stable (Extends tail) (nested limit x) := by
  intro d d' a r hext h
  unfold nested at h
  split_ifs at h with hdepth
  split at h
  · next b d₁ hb =>
    obtain ⟨rfl, rfl⟩ := Prod.mk.inj (Except.ok.inj h)
    obtain ⟨d₂, hb', hext'⟩ := hx { d with depth := d.depth + 1 } { d' with depth := d'.depth + 1 }
      _ _ ⟨hext.input, congrArg (· + 1) hext.depth, hext.budget⟩ hb
    refine ⟨{ d₂ with depth := d₂.depth - 1 }, ?_, hext'.input, congrArg (· - 1) hext'.depth,
      hext'.budget⟩
    rw [nested, hext.depth, if_neg hdepth]
    rw [hext.depth] at hb'
    rw [hb']
  · exact absurd h (by simp)

theorem stable_elements {x : DecodeM Value} (hx : Stable (Extends tail) x) :
    ∀ n, Stable (Extends tail) (elements x n)
  | 0 => .pure []
  | n + 1 => hx.bind fun v => (stable_elements hx n).map (v :: ·)

theorem stable_entries {x y : DecodeM Value} (hx : Stable (Extends tail) x)
    (hy : Stable (Extends tail) y) : ∀ n, Stable (Extends tail) (entries x y n)
  | 0 => .pure []
  | n + 1 => hx.bind fun k => hy.bind fun v => (stable_entries hx hy n).map ((k, v) :: ·)

theorem stable_fields {ι : Type u} {read : ι → DecodeM Value}
    (hread : ∀ t, Stable (Extends tail) (read t)) : ∀ ts, Stable (Extends tail) (fields read ts)
  | [] => .pure []
  | t :: ts => (hread t).bind fun v => (stable_fields hread ts).map (v :: ·)

theorem stable_variant {ι : Type u} {read : ι → DecodeM Value}
    (hread : ∀ t, Stable (Extends tail) (read t)) (variants : List (VariantShape ι))
    (index : UInt32) : Stable (Extends tail) (variant read variants index) := by
  unfold variant
  rcases variants[index.toNat]? with _ | _ | t | ts
  · exact .fail _
  · exact .pure _
  · exact (hread t).map _
  · exact (stable_fields hread ts).map _

end Decoder

/-! ## The deserializer -/

section Deserialize

variable {ι : Type u} {Γ : Schema ι}

/-- The induction is on the fuel. -/
theorem stable_deserialize (limit : ℕ) (Γ : Schema ι) (tail : List UInt8) :
    ∀ fuel s, Stable (Extends tail) (deserialize limit Γ fuel s)
  | 0, _ => .fail _
  | fuel + 1, s => by
    have ih := stable_deserialize limit Γ tail fuel
    unfold deserialize
    cases Γ s with
    | bool =>
      refine Decoder.stable_byte.bind fun b => ?_
      split
      · exact .pure _
      · exact .pure _
      · exact .fail _
    | scalar k => exact (Decoder.stable_take _).map _
    | char => exact Decoder.stable_char.map _
    | str => exact Decoder.stable_str.map _
    | bytes => exact Decoder.stable_byteBuf.map _
    | option t =>
      refine Decoder.stable_byte.bind fun b => ?_
      split
      · exact .pure _
      · exact Decoder.stable_nested ((ih t).map _)
      · exact .fail _
    | unit => exact .pure _
    | newtypeStruct t => exact Decoder.stable_nested ((ih t).map _)
    | tuple ts => exact Decoder.stable_nested ((Decoder.stable_fields ih ts).map _)
    | seq t =>
      exact Decoder.stable_count.bind fun n =>
        Decoder.stable_nested ((Decoder.stable_elements (ih t) n).map _)
    | map k v =>
      exact Decoder.stable_count.bind fun n =>
        Decoder.stable_nested ((Decoder.stable_entries (ih k) (ih v) n).map _)
    | enum variants =>
      exact Decoder.stable_nested ((Decoder.stable_take 4).bind fun bs =>
        Decoder.stable_variant ih variants _)

theorem extends_new (bytes tail : List UInt8) :
    Extends tail (Decoder.new bytes) (Decoder.new (bytes ++ tail)) :=
  ⟨rfl, rfl, by simp [Decoder.new]⟩

/-- Bytes after an accepted payload change nothing. -/
theorem fromSlice_extended {s : ι} {bytes rest : List UInt8} {v : Value}
    (h : fromSlice Γ s bytes = .ok (v, rest)) (tail : List UInt8) :
    fromSlice Γ s (bytes ++ tail) = .ok (v, rest ++ tail) := by
  unfold fromSlice fromSliceWithin at h ⊢
  cases hv : deserialize depthLimit Γ (depthLimit + 1) s (.new bytes) with
  | error e =>
    rw [hv] at h
    exact absurd h (by simp)
  | ok read =>
    obtain ⟨v', d⟩ := read
    rw [hv] at h
    obtain ⟨rfl, rfl⟩ := Prod.mk.inj (Except.ok.inj h)
    obtain ⟨d', hv', hext⟩ := stable_deserialize depthLimit Γ tail _ s _ _ _ _
      (extends_new bytes tail) hv
    rw [hv', ← hext.input]

theorem consumed_append {bytes rest : List UInt8} (tail : List UInt8) :
    consumed (bytes ++ tail) (rest ++ tail) = consumed bytes rest := by
  unfold consumed
  rw [List.length_append, List.length_append, Nat.add_sub_add_right,
    List.take_append_of_le_length (Nat.sub_le _ _)]

/-- Every extension of an accepted payload is accepted with the same value over the same bytes, and
every shorter start of these bytes is rejected. -/
theorem fromSlice_append {s : ι} {bytes rest : List UInt8} {v : Value}
    (h : fromSlice Γ s bytes = .ok (v, rest)) :
    (∀ longer, bytes <+: longer → ∃ rest', fromSlice Γ s longer = .ok (v, rest') ∧
      consumed longer rest' = consumed bytes rest) ∧
    ∀ shorter, shorter <+: consumed bytes rest → shorter ≠ consumed bytes rest →
      ∃ err, fromSlice Γ s shorter = .error err := by
  refine ⟨?_, fun shorter hprefix hne => ?_⟩
  · rintro _ ⟨tail, rfl⟩
    exact ⟨rest ++ tail, fromSlice_extended h tail, consumed_append tail⟩
  · cases hread : fromSlice Γ s shorter with
    | error err => exact ⟨err, rfl⟩
    | ok read =>
      obtain ⟨v', rest'⟩ := read
      obtain ⟨missing, hmissing⟩ := hprefix
      have hbytes : bytes = shorter ++ (missing ++ rest) := by
        rw [← List.append_assoc, hmissing]
        exact (toVec_of_fromSlice h).1
      -- what the start gave, the whole gives, so nothing of the start is missing
      have hwhole := fromSlice_extended hread (missing ++ rest)
      rw [← hbytes, h] at hwhole
      have hrest : rest = rest' ++ (missing ++ rest) := (Prod.mk.inj (Except.ok.inj hwhole)).2
      have hnil : missing = [] := by
        have hlen := congrArg List.length hrest
        simp only [List.length_append] at hlen
        exact List.length_eq_zero_iff.mp (by omega)
      rw [hnil, List.append_nil] at hmissing
      exact absurd hmissing hne

/-- Two units, whose elements take no bytes, before another byte. -/
theorem fromSlice_append_unitLists :
    (∃ rest', fromSlice unitLists 0 [2, 0, 0, 0, 0, 0, 0, 0, 9, 5, 5] =
        .ok (.seq [.unit, .unit], rest') ∧
      consumed [2, 0, 0, 0, 0, 0, 0, 0, 9, 5, 5] rest' = [2, 0, 0, 0, 0, 0, 0, 0]) ∧
      ∃ err, fromSlice unitLists 0 [2, 0, 0, 0, 0, 0, 0] = .error err := by
  have h := fromSlice_append (show fromSlice unitLists 0 [2, 0, 0, 0, 0, 0, 0, 0, 9, 5] =
    .ok (.seq [.unit, .unit], [9, 5]) by rfl)
  exact ⟨h.1 _ ⟨[5], rfl⟩, h.2 _ ⟨[0], rfl⟩ (by decide)⟩

end Deserialize

end LocalCache
