import LocalCache.Filling

/-!
# The page a query materializes

`materialize` walks the sorted candidates by index. Each round it computes in `usize` how many
candidates the next window needs, reads their payloads by id, and decodes them one by one. Here it
has its index, its payload map and its arithmetic, where `none` is a panic or too little fuel, and
`decoded` is a history variable, the candidates handed to the decoder.

The index, the windows and the map do not show. The rounds do what one pass over the candidates does
(`materializeLoop_eq`), whatever the size of a chunk, and such a pass meets the specification of a
page (`materialize_meetsPage`).

Tier 3 pages with arithmetic of its own, which adds the limit to the offset. `pageChecked` is `none`
where that overflows. It does for a large limit after any offset, and only then
(`pageChecked_eq_materialize_iff`).
-/

namespace LocalCache

/-- A page being materialized. -/
structure Page (T : Type) where
  idx : ℕ
  toSkip : ℕ
  out : List (CacheEntry T)
  skipped : List SkippedEntry
  decoded : List CandidateRow

section Materialize

variable {T : Type} (src : Sources T) (candidates : List CandidateRow) (limit : Option ℕ)

/-- The rows of a window, until the page is full. A payload is taken out of the map. -/
def materializeWindow : (window : List ℕ) → (payloadMap : List PayloadRow) → Page T →
    Option (Page T)
  | [], _, page => some page
  | i :: window, payloadMap, page => do
    let c ← candidates[i]?
    match payloadMap.find? fun p => p.fileId = c.id with
    | none => materializeWindow window payloadMap page
    | some p =>
      let payloadMap := payloadMap.filter fun p => p.fileId ≠ c.id
      let page := { page with decoded := page.decoded ++ [c] }
      match src.decode c.path ⟨p.content, p.encoding⟩ with
      | .error err =>
        materializeWindow window payloadMap { page with skipped := page.skipped ++ [⟨c.path, err⟩] }
      | .ok payload =>
        if page.toSkip > 0 then
          materializeWindow window payloadMap { page with toSkip := page.toSkip - 1 }
        else
          let page := { page with out := page.out ++ [⟨c.path, c.metadata, payload⟩] }
          if limit = some page.out.length then some page
          else materializeWindow window payloadMap page

variable (order : List ℕ) (chunk : ℕ) (db : Db)

/-- How many candidates a page still needs. -/
def Page.want (page : Page T) : Option ℕ :=
  match limit with
  | none => usizeSub order.length page.idx
  | some t => (usizeSub t page.out.length).map (usizeSaturatingAdd page.toSkip)

/-- The rounds of `materialize`, in windows of at most `chunk`. -/
def materializeLoop : (fuel : ℕ) → Page T → Option (Page T)
  | 0, _ => none
  | fuel + 1, page =>
    if limit.all (page.out.length < ·) ∧ page.idx < order.length then do
      let want ← page.want limit order
      let stop ← usizeAdd page.idx (min want chunk)
      let windowEnd := min stop order.length
      let window := (order.take windowEnd).drop page.idx
      let ids ← window.mapM fun i => candidates[i]?.map CandidateRow.id
      let page ← materializeWindow src candidates limit window (Sql.payloadsForIds ids db) page
      materializeLoop fuel { page with idx := windowEnd }
    else some page

/-- `materialize`, with fuel for a round for each candidate and one more. -/
def materialize (offset : ℕ) : Option (Page T) :=
  materializeLoop src candidates limit order chunk db (order.length + 1) ⟨0, offset, [], [], []⟩

end Materialize

/-! ## A window is a pass over its candidates -/

section Window

variable {T : Type} {src : Sources T} {candidates : List CandidateRow} {limit : Option ℕ}
  {payloads : List PayloadRow}

/-- The page as the pass sees it. -/
def Page.filling (page : Page T) : Filling T := ⟨[], page.toSkip, page.out, page.skipped⟩

/-- The page after a pass over `cs`. -/
def Page.passed (src : Sources T) (payloads : List PayloadRow) (limit : Option ℕ)
    (cs : List CandidateRow) (page : Page T) : Page T :=
  let f := fillWindow src limit payloads cs page.filling
  { page with
    toSkip := f.toSkip
    out := f.entries
    skipped := f.skipped
    decoded := page.decoded ++ (handledBy src payloads limit cs page.filling).filter fun c =>
      (payloads.find? fun p => p.fileId = c.id).isSome }

/-- The page after one candidate. -/
def Page.one (src : Sources T) (payloads : List PayloadRow) (c : CandidateRow) (page : Page T) :
    Page T :=
  let f := fillOne src payloads c page.filling
  { page with
    toSkip := f.toSkip
    out := f.entries
    skipped := f.skipped
    decoded := page.decoded ++ [c].filter fun c => (payloads.find? fun p => p.fileId = c.id).isSome }

@[simp] theorem Page.filling_one (c : CandidateRow) (page : Page T) :
    (page.one src payloads c).filling = fillOne src payloads c page.filling := by
  have hrest : (fillOne src payloads c page.filling).rest = [] := by
    rcases fillOne_cases src payloads c page.filling with
      ⟨-, heq⟩ | ⟨-, -, ⟨-, heq⟩ | ⟨-, entry, -, heq⟩⟩ <;> rw [heq] <;> rfl
  rw [Page.filling, Page.one, ← hrest]

theorem Page.passed_nil (page : Page T) : page.passed src payloads limit [] = page := by
  simp only [Page.passed, fillWindow, handledBy, List.filter_nil, List.append_nil]
  rfl

theorem Page.passed_cons (c : CandidateRow) (cs : List CandidateRow) (page : Page T) :
    page.passed src payloads limit (c :: cs) =
      if (fillOne src payloads c page.filling).full limit then page.one src payloads c
      else (page.one src payloads c).passed src payloads limit cs := by
  rw [Page.passed, Page.passed, Page.filling_one, fillWindow, handledBy]
  split_ifs
  · rfl
  · simp only [List.filter_cons, Page.one, List.filter_nil]
    split_ifs <;> simp

/-- The loop over a window, candidate by candidate. Ids are distinct, so what is taken out of the map
is of no other candidate. -/
theorem materializeWindow_eq : ∀ {window : List ℕ} {cs : List CandidateRow}
    {payloadMap : List PayloadRow} (page : Page T), window.map (candidates[·]?) = cs.map some →
      (cs.map CandidateRow.id).Nodup →
      (∀ c ∈ cs, payloadMap.find? (fun p => p.fileId = c.id) = payloads.find? fun p => p.fileId = c.id) →
      ¬page.filling.full limit →
        materializeWindow src candidates limit window payloadMap page =
          some (page.passed src payloads limit cs)
  | [], cs, _, page, hwindow, _, _, _ => by
    obtain rfl : cs = [] := List.map_eq_nil_iff.mp hwindow.symm
    rw [materializeWindow, Page.passed_nil]
  | i :: window, [], _, page, hwindow, _, _, _ => absurd hwindow (by simp)
  | i :: window, c :: cs, payloadMap, page, hwindow, hnodup, hmap, hfull => by
    obtain ⟨hc, hwindow⟩ := List.cons.inj hwindow
    obtain ⟨hnot, hnodup⟩ := List.nodup_cons.mp hnodup
    have hmap' : ∀ c' ∈ cs, (payloadMap.filter fun p => p.fileId ≠ c.id).find?
        (fun p => p.fileId = c'.id) = payloads.find? fun p => p.fileId = c'.id := by
      intro c' hc'
      have hne : c'.id ≠ c.id := fun h => hnot (h ▸ List.mem_map_of_mem hc')
      rw [← hmap c' (List.mem_cons_of_mem _ hc'), List.find?_filter]
      congr 1
      funext p
      by_cases hp : p.fileId = c'.id
      · simp [hp, hne]
      · simp [hp]
    have hnext : ∀ (payloadMap : List PayloadRow), (∀ c ∈ cs, payloadMap.find?
        (fun p => p.fileId = c.id) = payloads.find? fun p => p.fileId = c.id) →
        ¬(page.one src payloads c).filling.full limit →
          materializeWindow src candidates limit window payloadMap (page.one src payloads c) =
            some (page.passed src payloads limit (c :: cs)) := by
      intro payloadMap hmap hfull
      rw [Page.passed_cons, ← Page.filling_one, if_neg hfull]
      exact materializeWindow_eq _ hwindow hnodup hmap hfull
    have hc : candidates[i]? = some c := hc
    rw [materializeWindow, hc, Option.bind_eq_bind, Option.bind_some, hmap c List.mem_cons_self]
    cases hp : payloads.find? fun p => p.fileId = c.id with
    | none =>
      have hone : page.one src payloads c = page := by
        simp [Page.one, fillOne, hp, Page.filling]
      rw [hone] at hnext
      exact hnext _ (fun c' hc' => hmap c' (List.mem_cons_of_mem _ hc')) hfull
    | some p =>
      dsimp only
      cases hdecode : src.decode c.path ⟨p.content, p.encoding⟩ with
      | error err =>
        have hone : page.one src payloads c = { page with
            skipped := page.skipped ++ [⟨c.path, err⟩], decoded := page.decoded ++ [c] } := by
          simp [Page.one, fillOne, hp, hdecode, Page.filling]
        rw [hone] at hnext
        exact hnext _ hmap' hfull
      | ok payload =>
        dsimp only
        by_cases hskip : page.toSkip > 0
        · have hone : page.one src payloads c = { page with
              toSkip := page.toSkip - 1, decoded := page.decoded ++ [c] } := by
            simp [Page.one, fillOne, hp, hdecode, Page.filling, hskip]
          rw [hone] at hnext
          rw [if_pos hskip]
          exact hnext _ hmap' hfull
        · have hone : page.one src payloads c = { page with
              out := page.out ++ [⟨c.path, c.metadata, payload⟩], decoded := page.decoded ++ [c] } := by
            simp [Page.one, fillOne, hp, hdecode, Page.filling, hskip]
          rw [if_neg hskip]
          by_cases hbreak :
              limit = some (page.out ++ [(⟨c.path, c.metadata, payload⟩ : CacheEntry T)]).length
          · rw [if_pos hbreak, Page.passed_cons, ← Page.filling_one, if_pos, hone]
            rw [hone, hbreak]
            exact le_rfl
          · rw [if_neg hbreak]
            rw [hone] at hnext
            refine hnext _ hmap' ?_
            cases limit with
            | none => exact not_full_none
            | some n =>
              have hlt : page.out.length < n := not_le.mp hfull
              have hne : n ≠ page.out.length + 1 := fun h => hbreak (by
                rw [h, List.length_append, List.length_singleton])
              simp only [Filling.full, Page.filling, List.length_append, List.length_singleton]
              omega

end Window

/-! ## The rounds -/

section Rounds

variable {T : Type} {src : Sources T} {candidates : List CandidateRow} {limit : Option ℕ}
  {order : List ℕ} {chunk : ℕ} {db : Db}

/-- The candidates in their order. -/
def ordered (candidates : List CandidateRow) (order : List ℕ) : List CandidateRow :=
  order.filterMap (candidates[·]?)

/-- No window reaches over twice the candidates : the first starts at 0, and a later one is no wider
than they are. -/
def Page.Reaches (limit : Option ℕ) (order : List ℕ) (chunk : ℕ) (page : Page T) : Prop :=
  page.idx < order.length → page.idx = 0 ∨
    ∀ want, page.want limit order = some want → min want chunk ≤ order.length

theorem want_eq {page : Page T} (hfull : ¬page.filling.full limit) (hidx : page.idx ≤ order.length) :
    page.want limit order = some (match limit with
      | none => order.length - page.idx
      | some t => min (page.filling.room t) (usizeLimit - 1)) := by
  cases limit with
  | none => exact usizeSub_of_le hidx
  | some t =>
    have hlt : page.out.length < t := not_le.mp hfull
    rw [Page.want, usizeSub_of_le hlt.le, Option.map_some, usizeSaturatingAdd]
    rfl

theorem filling_passed (cs : List CandidateRow) (page : Page T) {payloads : List PayloadRow} :
    (page.passed src payloads limit cs).filling = fillWindow src limit payloads cs page.filling := by
  have hrest : (fillWindow src limit payloads cs { page.filling with rest := [] }).rest = [] :=
    congrArg Filling.rest (fillWindow_rest [] cs page.filling)
  rw [Page.filling, Page.passed]
  exact Filling.mk.injEq .. ▸ ⟨hrest.symm, rfl, rfl, rfl⟩

theorem passed_append {payloads : List PayloadRow} (cs cs' : List CandidateRow) {page : Page T}
    (hfull : ¬page.filling.full limit) : page.passed src payloads limit (cs ++ cs') =
      if (page.passed src payloads limit cs).filling.full limit then page.passed src payloads limit cs
      else (page.passed src payloads limit cs).passed src payloads limit cs' := by
  rw [filling_passed]
  conv_lhs => rw [Page.passed, fillWindow_append cs' cs hfull, handledBy_append cs' cs hfull]
  split_ifs
  · rw [List.append_nil]
    rfl
  · rw [List.filter_append, ← List.append_assoc]
    conv_rhs => rw [Page.passed, filling_passed]
    rfl

theorem map_ordered (hvalid : ∀ i ∈ order, i < candidates.length) :
    order.map (candidates[·]?) = (ordered candidates order).map some := by
  induction order with
  | nil => rfl
  | cons i order ih =>
    have hi := List.getElem?_eq_getElem (hvalid i List.mem_cons_self)
    rw [List.map_cons, ordered, List.filterMap_cons_some hi, List.map_cons, hi,
      ih fun j hj => hvalid j (List.mem_cons_of_mem _ hj)]
    rfl

theorem mapM_of_map {α β γ : Type} {f : α → Option β} {g : β → γ} : ∀ {l : List α} {bs : List β},
    l.map f = bs.map some → (l.mapM fun a => (f a).map g) = some (bs.map g)
  | [], bs, h => by
    obtain rfl : bs = [] := List.map_eq_nil_iff.mp h.symm
    rfl
  | a :: l, [], h => absurd h (by simp)
  | a :: l, b :: bs, h => by
    obtain ⟨ha, hl⟩ := List.cons.inj h
    rw [List.mapM_cons, ha, mapM_of_map hl]
    rfl

/-- A round whose arithmetic stays in range reads one window. -/
theorem materializeLoop_round {fuel w : ℕ} {page : Page T} {cs : List CandidateRow}
    (hfull : ¬page.filling.full limit) (hidx : page.idx < order.length)
    (hwant : page.want limit order = some w) (hroom : page.idx + min w chunk < usizeLimit)
    (hcs : ((order.take (min (page.idx + min w chunk) order.length)).drop page.idx).map
      (candidates[·]?) = cs.map some) (hnodup : (cs.map CandidateRow.id).Nodup) :
    materializeLoop src candidates limit order chunk db (fuel + 1) page =
      materializeLoop src candidates limit order chunk db fuel
        { page.passed src db.payloads limit cs with
          idx := min (page.idx + min w chunk) order.length } := by
  have hnotfull : limit.all (page.out.length < ·) = true := by
    cases limit with
    | none => rfl
    | some t => exact decide_eq_true (not_le.mp hfull)
  have hpass : materializeWindow src candidates limit
      ((order.take (min (page.idx + min w chunk) order.length)).drop page.idx)
      (Sql.payloadsForIds (cs.map CandidateRow.id) db) page =
        some (page.passed src db.payloads limit cs) :=
    materializeWindow_eq page hcs hnodup
      (fun c hc => find?_payloadsForIds (List.mem_map_of_mem hc)) hfull
  rw [materializeLoop, if_pos ⟨hnotfull, hidx⟩, hwant, Option.bind_eq_bind, Option.bind_some,
    usizeAdd_of_lt hroom, Option.bind_some]
  dsimp only
  rw [mapM_of_map hcs, Option.bind_eq_bind, Option.bind_some, hpass, Option.bind_eq_bind,
    Option.bind_some]

/-- A page needs no more after a window than before. -/
theorem want_le {page : Page T} {cs : List CandidateRow} {payloads : List PayloadRow} {w w' e : ℕ}
    (hwant : page.want limit order = some w) (hfull : ¬page.filling.full limit)
    (hidx : page.idx ≤ e) (he : e ≤ order.length)
    (hfull' : ¬(page.passed src payloads limit cs).filling.full limit)
    (hwant' : ({ page.passed src payloads limit cs with idx := e }).want limit order = some w') :
    w' ≤ w := by
  rw [want_eq hfull (hidx.trans he)] at hwant
  have hnext : ¬Filling.full limit (Page.filling { page.passed src payloads limit cs with idx := e }) :=
    hfull'
  rw [want_eq hnext he] at hwant'
  obtain rfl := Option.some.inj hwant
  obtain rfl := Option.some.inj hwant'
  cases limit with
  | none => exact Nat.sub_le_sub_left hidx _
  | some t =>
    refine min_le_min ?_ le_rfl
    show (page.passed src payloads (some t) cs).filling.room t ≤ _
    rw [filling_passed]
    exact room_fillWindow_le src payloads t cs page.filling

/-- The rounds left are one pass over the candidates left. -/
theorem materializeLoop_eq (hvalid : ∀ i ∈ order, i < candidates.length)
    (hids : ((ordered candidates order).map CandidateRow.id).Nodup) (hlen : order.length < 2 ^ 63)
    (hchunk : 1 ≤ chunk) : ∀ (fuel : ℕ) (page : Page T), order.length - page.idx < fuel →
      ¬page.filling.full limit → page.Reaches limit order chunk →
      ∃ idx, materializeLoop src candidates limit order chunk db fuel page =
        some { page.passed src db.payloads limit (ordered candidates (order.drop page.idx)) with
          idx := idx }
  | 0, _, hfuel, _, _ => absurd hfuel (Nat.not_lt_zero _)
  | fuel + 1, page, hfuel, hfull, hreaches => by
    by_cases hidx : page.idx < order.length
    swap
    · -- no candidate is left
      refine ⟨page.idx, ?_⟩
      rw [materializeLoop, if_neg fun h => hidx h.2, List.drop_eq_nil_of_le (not_lt.mp hidx), ordered,
        List.filterMap_nil, Page.passed_nil]
    obtain ⟨w, hwant⟩ : ∃ w, page.want limit order = some w := ⟨_, want_eq hfull hidx.le⟩
    have hbounds : 1 ≤ w ∧ w < usizeLimit := by
      have heq := hwant.symm.trans (want_eq hfull hidx.le)
      obtain rfl := Option.some.inj heq
      cases limit with
      | none => simp only [usizeLimit]; omega
      | some t =>
        have hlt : page.out.length < t := not_le.mp hfull
        simp only [Filling.room, Page.filling, usizeLimit]
        omega
    have hroom : page.idx + min w chunk < usizeLimit := by
      rcases hreaches hidx with h0 | hle
      · omega
      · have := hle w hwant
        simp only [usizeLimit]
        omega
    generalize he : min (page.idx + min w chunk) order.length = e
    have hidxe : page.idx < e := by omega
    have hele : e ≤ order.length := by omega
    have hsplit : order.drop page.idx = (order.take e).drop page.idx ++ order.drop e := by
      rw [← List.take_append_drop (e - page.idx) (order.drop page.idx), List.drop_drop,
        ← List.drop_take, Nat.add_sub_cancel' hidxe.le]
    have hordered : ordered candidates (order.drop page.idx) =
        ordered candidates ((order.take e).drop page.idx) ++ ordered candidates (order.drop e) := by
      rw [ordered, hsplit, List.filterMap_append]
      rfl
    have hcs : ((order.take e).drop page.idx).map (candidates[·]?) =
        (ordered candidates ((order.take e).drop page.idx)).map some :=
      map_ordered fun i hi => hvalid i (List.mem_of_mem_take (List.mem_of_mem_drop hi))
    have hnodup : ((ordered candidates ((order.take e).drop page.idx)).map CandidateRow.id).Nodup :=
      hids.sublist (((List.drop_sublist _ _).trans (List.take_sublist _ _)).filterMap _ |>.map _)
    rw [materializeLoop_round hfull hidx hwant hroom (he ▸ hcs) hnodup, he, hordered,
      passed_append _ _ hfull]
    generalize hcsdef : ordered candidates ((order.take e).drop page.idx) = cs
    by_cases hfull' : (page.passed src db.payloads limit cs).filling.full limit
    · -- the window filled the page
      obtain ⟨fuel, rfl⟩ : ∃ n, fuel = n + 1 := ⟨fuel - 1, by omega⟩
      refine ⟨e, ?_⟩
      rw [if_pos hfull', materializeLoop, if_neg]
      rintro ⟨hall, -⟩
      cases limit with
      | none => exact not_full_none hfull'
      | some t => exact absurd (of_decide_eq_true hall) (not_lt.mpr hfull')
    · rw [if_neg hfull']
      refine materializeLoop_eq hvalid hids hlen hchunk fuel
        { page.passed src db.payloads limit cs with idx := e } (by dsimp only; omega) hfull' ?_
      intro hlt
      refine Or.inr fun w' hw' => ?_
      have hle := want_le hwant hfull hidxe.le hele hfull' hw'
      have hlt : e < order.length := hlt
      omega

end Rounds

/-! ## The specification of a page -/

/-- Drop the offset, then take the limit. -/
def paged {α : Type} (offset : ℕ) (limit : Option ℕ) (l : List α) : List α :=
  match limit with
  | none => l.drop offset
  | some n => (l.drop offset).take n

theorem paged_map {α β : Type} (f : α → β) (offset : ℕ) (limit : Option ℕ) (l : List α) :
    paged offset limit (l.map f) = (paged offset limit l).map f := by
  unfold paged
  cases limit <;> simp only [List.map_drop, List.map_take]

section Specification

variable {T : Type} (src : Sources T) (payloads : List PayloadRow)

/-- A page of the candidates `cs` : its entries are those of the candidates that decode, paged. It
walked the candidates up to the one that filled it, and no further. Of these it reports those that
do not decode, and it decoded each that has a payload once. -/
structure MeetsPage (offset : ℕ) (limit : Option ℕ) (cs walked : List CandidateRow)
    (page : Page T) : Prop where
  entries : page.out = paged offset limit (cs.filterMap (entryOf src payloads))
  isPrefix : walked <+: cs
  skipped : page.skipped = walked.filterMap (skipOf src payloads)
  decoded : page.decoded = walked.filter fun c => (payloads.find? fun p => p.fileId = c.id).isSome
  once : (page.decoded.map CandidateRow.id).Nodup
  stops : match limit with
    | none => walked = cs
    | some 0 => walked = []
    | some (n + 1) => page.out.length < n + 1 ∧ walked = cs ∨
      page.out.length = n + 1 ∧ ∃ before c, walked = before ++ [c] ∧
        decodes src payloads c = true ∧ (before.filter (decodes src payloads)).length = offset + n

variable {src payloads} {limit : Option ℕ} {offset : ℕ} {cs : List CandidateRow}

theorem length_filterMap_entryOf (cs : List CandidateRow) :
    (cs.filterMap (entryOf src payloads)).length = (cs.filter (decodes src payloads)).length := by
  rw [List.length_filterMap_eq_countP, List.countP_eq_length_filter]
  congr 1
  exact List.filter_congr fun c _ => isSome_entryOf src payloads c

/-- A walk takes no more entries than the page has places. -/
theorem Handles.length_le {f : Filling T} {handled : List CandidateRow} {n : ℕ}
    (h : Handles src payloads (some n) f cs handled) :
    (handled.filter (decodes src payloads)).length ≤ f.room n := by
  rcases List.eq_nil_or_concat handled with rfl | ⟨before, c, rfl⟩
  · exact Nat.zero_le _
  · have hlt := h.room n rfl before c [] (by simp)
    rw [List.concat_eq_append, List.filter_append, List.length_append]
    have hone := List.length_filter_le (decodes src payloads) [c]
    rw [List.length_singleton] at hone
    omega

/-- A full walk ends with the candidate that took the last place. -/
theorem Handles.last {f : Filling T} {handled : List CandidateRow} {n : ℕ}
    (h : Handles src payloads (some n) f cs handled) (hpos : 0 < f.room n)
    (hcount : (handled.filter (decodes src payloads)).length = f.room n) :
    ∃ before c, handled = before ++ [c] ∧ decodes src payloads c = true ∧
      (before.filter (decodes src payloads)).length + 1 = f.room n := by
  rcases List.eq_nil_or_concat handled with rfl | ⟨before, c, rfl⟩
  · exact absurd hcount hpos.ne
  · rw [List.concat_eq_append] at h hcount ⊢
    have hlt := h.room n rfl before c [] (by simp)
    rw [List.filter_append, List.length_append] at hcount
    cases hdec : decodes src payloads c with
    | true =>
      rw [List.filter_cons_of_pos hdec] at hcount
      exact ⟨before, c, rfl, hdec, hcount⟩
    | false =>
      rw [List.filter_cons_of_neg (by simp [hdec])] at hcount
      simp only [List.filter_nil, List.length_nil] at hcount
      omega

/-- The entries of one pass over the candidates. -/
theorem entries_fillWindow_eq_paged {f : Filling T} (hempty : f.entries = []) (hfull : ¬f.full limit) :
    (fillWindow src limit payloads cs f).entries =
      paged f.toSkip limit (cs.filterMap (entryOf src payloads)) := by
  have h := handles_fillWindow src payloads cs hfull
  have hentries : (fillWindow src limit payloads cs f).entries = _ :=
    entries_fillWindow_eq src payloads cs f
  generalize handledBy src payloads limit cs f = walked at h hentries
  rw [hempty, List.nil_append] at hentries
  rw [hentries]
  obtain ⟨left, hleft⟩ := h.isPrefix
  have hlength : (walked.filterMap (entryOf src payloads)).length = _ :=
    length_filterMap_entryOf walked
  have hroom : ∀ n, f.room n = f.toSkip + n := fun n => by rw [Filling.room, hempty]; rfl
  cases limit with
  | none =>
    rcases h.stops with rfl | ⟨n, hn, -⟩
    · rfl
    · exact absurd hn (by simp)
  | some n =>
    rcases h.stops with rfl | ⟨m, hm, hcount⟩
    · have hle := h.length_le
      rw [hroom] at hle
      refine (List.take_of_length_le ?_).symm
      rw [List.length_drop, hlength]
      omega
    · obtain rfl := Option.some.inj hm
      rw [hroom] at hcount
      rw [paged, ← hleft, List.filterMap_append, List.drop_append_of_le_length (by omega)]
      refine (List.take_left' ?_).symm
      rw [List.length_drop, hlength]
      omega

/-- One pass over the candidates meets the specification. -/
theorem meetsPage_passed (hids : (cs.map CandidateRow.id).Nodup)
    (hfull : ¬(Page.filling ⟨0, offset, [], [], []⟩ : Filling T).full limit) (idx : ℕ) :
    ∃ walked, MeetsPage src payloads offset limit cs walked
      { (Page.passed src payloads limit cs ⟨0, offset, [], [], []⟩) with idx := idx } := by
  generalize hf : (Page.filling ⟨0, offset, [], [], []⟩ : Filling T) = f at hfull
  have h := handles_fillWindow src payloads cs hfull
  have hentries : (fillWindow src limit payloads cs f).entries = _ :=
    entries_fillWindow_eq src payloads cs f
  generalize hw : handledBy src payloads limit cs f = walked at h hentries
  have hout : (fillWindow src limit payloads cs f).entries =
      (walked.filterMap (entryOf src payloads)).drop offset := by
    rw [hentries, ← hf]
    rfl
  have hskipped : (fillWindow src limit payloads cs f).skipped =
      walked.filterMap (skipOf src payloads) := by
    rw [h.skipped, ← hf]
    rfl
  have hlength : (walked.filterMap (entryOf src payloads)).length = _ :=
    length_filterMap_entryOf walked
  have hdecoded : (Page.passed src payloads limit cs ⟨0, offset, [], [], []⟩).decoded =
      walked.filter fun c => (payloads.find? fun p => p.fileId = c.id).isSome := by
    rw [Page.passed, hf, hw, List.nil_append]
  have hroom : ∀ n, f.room n = offset + n := fun n => by rw [← hf]; rfl
  have hpage : (Page.passed src payloads limit cs ⟨0, offset, [], [], []⟩).out =
      (walked.filterMap (entryOf src payloads)).drop offset := by
    rw [Page.passed, hf, hout]
  have hpaged : (Page.passed src payloads limit cs ⟨0, offset, [], [], []⟩).out =
      paged offset limit (cs.filterMap (entryOf src payloads)) := by
    rw [Page.passed, hf, entries_fillWindow_eq_paged (by rw [← hf]; rfl) hfull, ← hf]
    rfl
  refine ⟨walked, hpaged, h.isPrefix, ?_, hdecoded, ?_, ?_⟩
  · rw [← hskipped, ← hf]
    rfl
  · have hsub : (Page.passed src payloads limit cs ⟨0, offset, [], [], []⟩).decoded.Sublist cs := by
      rw [hdecoded]
      exact List.filter_sublist.trans h.isPrefix.sublist
    exact hids.sublist (hsub.map _)
  · rcases limit with _ | _ | n
    · rcases h.stops with hcs | ⟨n, hn, -⟩
      · exact hcs
      · exact absurd hn (by simp)
    · exact absurd (Nat.zero_le _) hfull
    · have hle := h.length_le
      have hlen := congrArg List.length hpage
      rw [List.length_drop, hlength] at hlen
      rw [hroom] at hle
      by_cases hlast : (walked.filter (decodes src payloads)).length = offset + (n + 1)
      · obtain ⟨before, c, heq, hdec, hbefore⟩ := h.last (by rw [hroom]; omega) (by rw [hroom, hlast])
        rw [hroom] at hbefore
        exact Or.inr ⟨by dsimp only; omega, before, c, heq, hdec, by omega⟩
      · refine Or.inl ⟨by dsimp only; omega, ?_⟩
        rcases h.stops with hcs | ⟨m, hm, hcount⟩
        · exact hcs
        · obtain rfl := Option.some.inj hm
          rw [hroom] at hcount
          exact absurd hcount hlast

variable {candidates : List CandidateRow} {order : List ℕ} {chunk : ℕ} {db : Db}

theorem ordered_perm (hperm : order.Perm (List.range candidates.length)) :
    (ordered candidates order).Perm candidates := by
  have hall : ordered candidates (List.range candidates.length) = candidates := by
    have hmap : (List.range candidates.length).map (candidates[·]?) = _ :=
      map_ordered fun i hi => List.mem_range.mp hi
    refine (List.map_injective_iff.mpr (Option.some_injective _)) (hmap.symm.trans ?_)
    refine List.ext_getElem? fun i => ?_
    by_cases hi : i < candidates.length
    · simp [hi]
    · rw [List.getElem?_eq_none (by simpa using hi), List.getElem?_eq_none (by simpa using hi)]
  exact (hperm.filterMap _).trans (List.Perm.of_eq hall)

/-- For every order of the candidates, every assignment of payloads to them, and every offset, limit
and size of a chunk, the rounds end without a panic in a page that meets the specification. A vector
holds fewer than `2 ^ 63` candidates. -/
theorem materialize_meetsPage (src : Sources T) (offset : ℕ) (limit : Option ℕ) (db : Db)
    (hperm : order.Perm (List.range candidates.length))
    (hids : (candidates.map CandidateRow.id).Nodup) (hlen : candidates.length < 2 ^ 63)
    (hchunk : 1 ≤ chunk) :
    ∃ page walked, materialize src candidates limit order chunk db offset = some page ∧
      MeetsPage src db.payloads offset limit (ordered candidates order) walked page := by
  have hvalid : ∀ i ∈ order, i < candidates.length := fun i hi =>
    List.mem_range.mp (hperm.subset hi)
  have hids' : ((ordered candidates order).map CandidateRow.id).Nodup :=
    ((ordered_perm hperm).map _).nodup_iff.mpr hids
  have hlen' : order.length < 2 ^ 63 := by
    rw [hperm.length_eq, List.length_range]
    exact hlen
  by_cases hfull : (Page.filling ⟨0, offset, [], [], []⟩ : Filling T).full limit
  · -- the limit is 0
    obtain rfl : limit = some 0 := by
      cases limit with
      | none => exact absurd hfull not_full_none
      | some n => exact congrArg some (Nat.le_zero.mp hfull)
    refine ⟨⟨0, offset, [], [], []⟩, [], ?_, ?_⟩
    · rw [materialize, materializeLoop, if_neg fun h => absurd h.1 (by simp)]
    · exact ⟨by simp [paged], List.nil_prefix, rfl, rfl, List.nodup_nil, rfl⟩
  · obtain ⟨idx, hrun⟩ : ∃ idx, materializeLoop src candidates limit order chunk db
        (order.length + 1) ⟨0, offset, [], [], []⟩ = some { Page.passed src db.payloads limit
          (ordered candidates (order.drop 0)) ⟨0, offset, [], [], []⟩ with idx := idx } :=
      materializeLoop_eq hvalid hids' hlen' hchunk (order.length + 1) ⟨0, offset, [], [], []⟩
        (by dsimp only; omega) hfull fun _ => Or.inl rfl
    obtain ⟨walked, hmeets⟩ := meetsPage_passed hids' hfull idx
    exact ⟨_, walked, hrun, hmeets⟩

end Specification

/-! ## The paginator of tier 3 -/

section Tier3

/-- `offset` and `limit` of tier 3, where an overflow panics. -/
def pageChecked {α : Type} (q : Query) (l : List α) : Option (List α) := do
  let start := min q.offset l.length
  let stop ← match q.limit with
    | none => some l.length
    | some n => (usizeAdd start n).map (min · l.length)
  let count ← usizeSub stop start
  return (l.drop start).take count

variable {α : Type} {q : Query} {l : List α}

theorem drop_min (offset : ℕ) (l : List α) : l.drop (min offset l.length) = l.drop offset := by
  rcases le_total offset l.length with h | h
  · rw [min_eq_left h]
  · rw [min_eq_right h, List.drop_length, List.drop_eq_nil_of_le h]

theorem take_min_drop (start n : ℕ) (l : List α) :
    (l.drop start).take (min (start + n) l.length - start) = (l.drop start).take n := by
  rw [List.take_eq_take_iff, List.length_drop]
  omega

/-- Where nothing overflows, tier 3 drops the offset, then takes the limit. -/
theorem pageChecked_of_lt (h : ∀ n, q.limit = some n → min q.offset l.length + n < usizeLimit) :
    pageChecked q l = some (paged q.offset q.limit l) := by
  unfold pageChecked paged
  cases hlimit : q.limit with
  | none =>
    have hall : (l.drop q.offset).take (l.length - min q.offset l.length) = l.drop q.offset := by
      refine List.take_of_length_le ?_
      rw [List.length_drop]
      omega
    simp only [usizeSub_of_le (Nat.min_le_right q.offset l.length), Option.bind_eq_bind,
      Option.bind_some, drop_min, hall]
    rfl
  | some n =>
    have hstart : min q.offset l.length ≤ min (min q.offset l.length + n) l.length := by omega
    have htake : (l.drop (min q.offset l.length)).take (min (min q.offset l.length + n) l.length -
        min q.offset l.length) = (l.drop q.offset).take n := by rw [take_min_drop, drop_min]
    simp only [usizeAdd_of_lt (h n hlimit), Option.map_some, usizeSub_of_le hstart,
      Option.bind_eq_bind, Option.bind_some, htake]
    rfl

/-- The addition of tier 3 panics. -/
theorem pageChecked_of_le {n : ℕ} (hlimit : q.limit = some n)
    (h : usizeLimit ≤ min q.offset l.length + n) : pageChecked q l = none := by
  rw [pageChecked]
  simp only [hlimit, usizeAdd, if_neg (not_lt.mpr h)]
  rfl

/-- A build without overflow checks wraps around, and gets the page all the same. -/
theorem pageOf_eq_paged (hlimit : ∀ n, q.limit = some n → n < usizeLimit) (hlen : l.length < 2 ^ 63) :
    pageOf q l = paged q.offset q.limit l := by
  unfold pageOf paged
  dsimp only
  cases hq : q.limit with
  | none =>
    dsimp only
    rw [drop_min]
    refine List.take_of_length_le ?_
    rw [List.length_drop]
    omega
  | some n =>
    have hn := hlimit n hq
    simp only [usizeLimit] at hn
    dsimp only
    rw [← drop_min q.offset l, List.take_eq_take_iff, List.length_drop]
    omega

variable {T : Type} {candidates : List CandidateRow} {order : List ℕ} {chunk : ℕ}

/-- Tier 3 pages without overflow, and as `materialize` does for the same entries in the same order,
exactly if the limit can be added to the offset, cut to the number of entries. -/
theorem pageChecked_eq_materialize_iff (src : Sources T) (q : Query) (db : Db)
    (hperm : order.Perm (List.range candidates.length))
    (hids : (candidates.map CandidateRow.id).Nodup) (hlen : candidates.length < 2 ^ 63)
    (hchunk : 1 ≤ chunk) :
    let entries := (ordered candidates order).filterMap (entryOf src db.payloads)
    (∃ page, pageChecked q entries = some page ∧
      (materialize src candidates q.limit order chunk db q.offset).map Page.out = some page) ↔
        ∀ n, q.limit = some n → min q.offset entries.length + n < usizeLimit := by
  intro entries
  obtain ⟨page, walked, hrun, hmeets⟩ := materialize_meetsPage src q.offset q.limit db hperm hids hlen
    hchunk
  constructor
  · rintro ⟨page', hchecked, -⟩ n hn
    by_contra h
    rw [pageChecked_of_le hn (not_lt.mp h)] at hchecked
    exact absurd hchecked (by simp)
  · intro h
    exact ⟨page.out, by rw [pageChecked_of_lt h, hmeets.entries], by rw [hrun]; rfl⟩

end Tier3

/-! ## Bad rows on a page -/

section BadRows

/-- A payload is its bytes, which may not be empty. -/
def Sources.nonempty : Sources (List UInt8) where
  normalizePath := .ok
  collectMetadata _ := .ok ⟨0, 0, none⟩
  computeHash _ := .ok none
  detectChange _ _ := .ok .fresh
  encode _ payload := .ok ⟨payload, "bin"⟩
  decode _ encoded := if encoded.bytes = [] then .error (.serialization "empty") else .ok encoded.bytes
  decodeBase64 _ := .ok []

/-- Four candidates : the payload of the second is missing, and that of the third is empty. -/
def badRows : List CandidateRow :=
  [⟨1, "/a", ⟨0, 0, none⟩, 0⟩, ⟨2, "/b", ⟨0, 0, none⟩, 0⟩, ⟨3, "/c", ⟨0, 0, none⟩, 0⟩,
    ⟨4, "/d", ⟨0, 0, none⟩, 0⟩]

def badPayloads : Db := ⟨[], [⟨1, [1], "bin"⟩, ⟨3, [], "bin"⟩, ⟨4, [4], "bin"⟩], 4⟩

theorem materialize_meetsPage_sample :
    ∃ page walked, materialize Sources.nonempty badRows (some 1) [3, 1, 2, 0] 2 badPayloads 1 =
        some page ∧
      MeetsPage Sources.nonempty badPayloads.payloads 1 (some 1) (ordered badRows [3, 1, 2, 0]) walked
        page :=
  materialize_meetsPage Sources.nonempty 1 (some 1) badPayloads (by decide) (by decide) (by decide)
    (by decide)

example : (materialize Sources.nonempty badRows (some 1) [3, 1, 2, 0] 2 badPayloads 1).map
    (fun page => (page.out.map CacheEntry.path, page.skipped.map SkippedEntry.path)) =
      some (["/a"], ["/c"]) := by decide +kernel

/-- Everything after the first entry. -/
def allButFirst : Query := ⟨[], some (2 ^ 64 - 1), 1, none, none, none, []⟩

theorem pageChecked_eq_materialize_iff_sample :
    ∃ page, pageChecked { allButFirst with limit := some 1 } ((ordered badRows [3, 1, 2, 0]).filterMap
        (entryOf Sources.nonempty badPayloads.payloads)) = some page ∧
      (materialize Sources.nonempty badRows (some 1) [3, 1, 2, 0] 2 badPayloads 1).map Page.out =
        some page := by
  refine (pageChecked_eq_materialize_iff Sources.nonempty { allButFirst with limit := some 1 }
    badPayloads (by decide) (by decide) (by decide) (by decide)).mpr fun n hn => ?_
  obtain rfl := Option.some.inj hn
  decide +kernel

/-- A limit of `usize::MAX` after an offset of one overflows in tier 3, where `materialize` returns
the second entry. -/
theorem allButFirst_overflows :
    pageChecked allButFirst ((ordered badRows [3, 1, 2, 0]).filterMap
        (entryOf Sources.nonempty badPayloads.payloads)) = none ∧
      (materialize Sources.nonempty badRows allButFirst.limit [3, 1, 2, 0] 2 badPayloads
        allButFirst.offset).map (fun page => page.out.map CacheEntry.path) = some ["/a"] := by
  refine ⟨?_, by decide +kernel⟩
  refine pageChecked_of_le rfl ?_
  decide +kernel

end BadRows

end LocalCache
