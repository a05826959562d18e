import LocalCache.ReadBack

/-!
# Bounded decompression

`decompress_bytes` reads a stream in chunks of at most 16 KiB and grows its buffer by a rule of its
own. `loopState` is its loop after any number of reads, with every allocation and with `none` where
a subtraction or an addition would panic. A step keeps the bytes within the capacity and the
capacity within the limit, so nothing panics (`exists_loopState`), and the outcome depends only on
the chunks and on how the stream ends (`boundedDecompression`).
-/

namespace LocalCache

/-! ## Reads -/

/-- What a read puts into the buffer of 16 KiB. -/
structure Chunk where
  bytes : List UInt8
  pos : 1 ≤ bytes.length
  le : bytes.length ≤ 16 * 1024

/-- What a read of the decoder returns. `Ok(0)` is the end of the stream. -/
inductive DecoderRead
  | chunk (c : Chunk)
  | interrupted
  | error (text : String)
  | endOfStream

namespace DecoderRead

def bytes : DecoderRead → List UInt8
  | .chunk c => c.bytes
  | .interrupted | .error _ | .endOfStream => []

/-- The stream goes on after the read. -/
def Continues : DecoderRead → Prop
  | .chunk _ | .interrupted => True
  | .error _ | .endOfStream => False

end DecoderRead

/-- The bytes of the first `k` reads. -/
def received (reads : ℕ → DecoderRead) : ℕ → List UInt8
  | 0 => []
  | k + 1 => received reads k ++ (reads k).bytes

theorem length_received_mono {reads : ℕ → DecoderRead} {j k : ℕ} (h : j ≤ k) :
    (received reads j).length ≤ (received reads k).length := by
  induction k, h using Nat.le_induction with
  | base => exact le_rfl
  | succ k _ ih =>
    rw [received, List.length_append]
    omega

/-! ## The buffer -/

/-- A vector of bytes, with what is allocated for it. -/
structure Vec where
  out : List UInt8
  capacity : ℕ

namespace Vec

def withCapacity (capacity : ℕ) : Vec := ⟨[], capacity⟩

/-- The capacity is exactly what is asked for, unless there is enough. -/
def reserveExact (v : Vec) (additional : ℕ) : Vec :=
  { v with capacity := max v.capacity (v.out.length + additional) }

/-- Past its capacity a vector grows by its own rule, to twice the capacity or more. -/
def extendFromSlice (v : Vec) (bytes : List UInt8) : Vec where
  out := v.out ++ bytes
  capacity := if v.out.length + bytes.length ≤ v.capacity then v.capacity
    else max (2 * v.capacity) (v.out.length + bytes.length)

/-- The bytes are within the capacity, and the capacity within the limit. -/
structure Within (v : Vec) (limit : ℕ) : Prop where
  length_le : v.out.length ≤ v.capacity
  capacity_le : v.capacity ≤ limit

end Vec

/-! ## The loop -/

inductive LoopState
  | running (v : Vec)
  | returned (result : Except FormatError (List UInt8))

/-- One turn of the loop. -/
def readStep (limit : ℕ) (v : Vec) : DecoderRead → Option LoopState
  | .endOfStream => some (.returned (.ok v.out))
  | .interrupted => some (.running v)
  | .error text => some (.returned (.error (.io text)))
  | .chunk c => do
    let room ← usizeSub limit v.out.length
    if c.bytes.length > room then return .returned (.error (.payloadTooLarge limit))
    let free ← usizeSub v.capacity v.out.length
    if c.bytes.length > free then
      let needed ← usizeAdd v.out.length c.bytes.length
      let target := min (max (usizeSaturatingMul v.capacity 2) needed) limit
      let additional ← usizeSub target v.out.length
      return .running ((v.reserveExact additional).extendFromSlice c.bytes)
    return .running (v.extendFromSlice c.bytes)

/-- The loop after `k` reads. -/
def loopState (limit : ℕ) (reads : ℕ → DecoderRead) (v : Vec) : ℕ → Option LoopState
  | 0 => some (.running v)
  | k + 1 => do
    match ← loopState limit reads v k with
    | .running v => readStep limit v (reads k)
    | .returned result => return .returned result

/-- `decompress_bytes` after `k` reads, for the content size the frame declares and the decoder as it
opens. -/
def decompress (limit : ℕ) (declared : Option ℕ) (opened : Except String (ℕ → DecoderRead))
    (k : ℕ) : Option LoopState :=
  if declared.any (· > limit) then some (.returned (.error (.payloadTooLarge limit)))
  else
    match opened with
    | .error text => some (.returned (.error (.io text)))
    | .ok reads => loopState limit reads (.withCapacity (declared.getD 0)) k

/-- Some number of reads ends in this result. -/
def Returns (limit : ℕ) (declared : Option ℕ) (opened : Except String (ℕ → DecoderRead))
    (result : Except FormatError (List UInt8)) : Prop :=
  ∃ k, decompress limit declared opened k = some (.returned result)

/-! ## What a step does -/

/-- The read that ends the loop, after these bytes. -/
inductive Stops (limit : ℕ) (out : List UInt8) :
    DecoderRead → Except FormatError (List UInt8) → Prop
  | endOfStream : Stops limit out .endOfStream (.ok out)
  | error (text : String) : Stops limit out (.error text) (.error (.io text))
  | tooLarge (c : Chunk) (h : limit < out.length + c.bytes.length) :
      Stops limit out (.chunk c) (.error (.payloadTooLarge limit))

section Step

variable {limit : ℕ} {reads : ℕ → DecoderRead} {v : Vec} {read : DecoderRead}

/-- Bytes that fit the capacity move nothing. -/
theorem within_extendFromSlice {bytes : List UInt8} (hcap : v.capacity ≤ limit)
    (hfits : v.out.length + bytes.length ≤ v.capacity) :
    (v.extendFromSlice bytes).Within limit := by
  have hcapacity : (v.extendFromSlice bytes).capacity = v.capacity := if_pos hfits
  refine ⟨?_, hcapacity ▸ hcap⟩
  rw [hcapacity, Vec.extendFromSlice, List.length_append]
  exact hfits

/-- The growth covers the bytes, and never passes the limit. -/
theorem within_grow (hv : v.Within limit) {bytes : List UInt8} {target : ℕ}
    (hle : v.out.length + bytes.length ≤ limit)
    (htarget : target =
      min (max (usizeSaturatingMul v.capacity 2) (v.out.length + bytes.length)) limit) :
    v.out.length ≤ target ∧
      ((v.reserveExact (target - v.out.length)).extendFromSlice bytes).Within limit := by
  have hcap := hv.capacity_le
  have hneeded : v.out.length + bytes.length ≤ target := by omega
  have hlimit : target ≤ limit := by omega
  clear htarget
  refine ⟨by omega, within_extendFromSlice ?_ ?_⟩
  · simp only [Vec.reserveExact]
    omega
  · simp only [Vec.reserveExact]
    omega

/-- A turn goes on with the bytes read, within the limit, or the read ends the loop. Nothing
panics. -/
theorem readStep_cases (hlimit : limit < usizeLimit) (hv : v.Within limit) (read : DecoderRead) :
    (∃ v', readStep limit v read = some (.running v') ∧ read.Continues ∧
        v'.out = v.out ++ read.bytes ∧ v'.Within limit) ∨
      ∃ result, readStep limit v read = some (.returned result) ∧ Stops limit v.out read result := by
  have hlen : v.out.length ≤ limit := hv.length_le.trans hv.capacity_le
  cases read with
  | endOfStream => exact .inr ⟨_, rfl, .endOfStream⟩
  | error text => exact .inr ⟨_, rfl, .error text⟩
  | interrupted => exact .inl ⟨v, rfl, trivial, (List.append_nil _).symm, hv⟩
  | chunk c =>
    simp only [readStep, usizeSub_of_le hlen, usizeSub_of_le hv.length_le, Option.bind_eq_bind,
      Option.bind_some]
    split_ifs with hlarge hgrow
    · exact .inr ⟨_, rfl, .tooLarge c (by omega)⟩
    · have hle : v.out.length + c.bytes.length ≤ limit := by omega
      obtain ⟨hsub, hwithin⟩ := within_grow hv hle rfl
      rw [usizeAdd_of_lt (hle.trans_lt hlimit), Option.bind_some, usizeSub_of_le hsub,
        Option.bind_some]
      exact .inl ⟨_, rfl, trivial, rfl, hwithin⟩
    · have hfits : v.out.length + c.bytes.length ≤ v.capacity := by
        have := hv.length_le
        omega
      exact .inl ⟨_, rfl, trivial, rfl, within_extendFromSlice hv.capacity_le hfits⟩

end Step

/-! ## What a run does -/

/-- The loop goes on with all bytes received, within the limit, or some read ended it. -/
def Tracks (limit : ℕ) (reads : ℕ → DecoderRead) (k : ℕ) : LoopState → Prop
  | .running v => (∀ i < k, (reads i).Continues) ∧ v.out = received reads k ∧ v.Within limit
  | .returned result => ∃ j < k, (∀ i < j, (reads i).Continues) ∧
      (received reads j).length ≤ limit ∧ Stops limit (received reads j) (reads j) result

section Run

variable {limit : ℕ} {reads : ℕ → DecoderRead} {v : Vec} {j k : ℕ}
  {result : Except FormatError (List UInt8)} {out : List UInt8}

/-- However many reads, nothing panics and the loop is where the reads put it. -/
theorem exists_loopState (reads : ℕ → DecoderRead) (hlimit : limit < usizeLimit)
    (hv : v.Within limit) (hout : v.out = []) : ∀ k, ∃ s, loopState limit reads v k = some s ∧
      Tracks limit reads k s
  | 0 => ⟨.running v, rfl, fun _ h => absurd h (Nat.not_lt_zero _), hout, hv⟩
  | k + 1 => by
    obtain ⟨s, hs, htracks⟩ := exists_loopState reads hlimit hv hout k
    rw [loopState, hs, Option.bind_eq_bind, Option.bind_some]
    cases s with
    | running v' =>
      obtain ⟨hcontinues, hreceived, hwithin⟩ := htracks
      rcases readStep_cases hlimit hwithin (reads k) with
        ⟨v'', hstep, hgoes, happend, hwithin'⟩ | ⟨result, hstep, hstops⟩
      · refine ⟨_, hstep, fun i hi => ?_, by rw [happend, hreceived, received], hwithin'⟩
        rcases Nat.lt_succ_iff_lt_or_eq.mp hi with hi | rfl
        · exact hcontinues i hi
        · exact hgoes
      · refine ⟨_, hstep, k, Nat.lt_succ_self k, hcontinues, ?_, hreceived ▸ hstops⟩
        rw [← hreceived]
        exact hwithin.length_le.trans hwithin.capacity_le
    | returned result =>
      obtain ⟨j, hj, hstops⟩ := htracks
      exact ⟨_, rfl, j, hj.trans (Nat.lt_succ_self k), hstops⟩

/-- A read that ends the loop does not go on, unless it is too large. -/
theorem Stops.not_continues {read : DecoderRead} (h : Stops limit out read result)
    (hgoes : read.Continues) : limit < (out ++ read.bytes).length ∧
      result = .error (.payloadTooLarge limit) := by
  cases h with
  | endOfStream => exact hgoes.elim
  | error text => exact hgoes.elim
  | tooLarge c h => exact ⟨by rw [List.length_append]; exact h, rfl⟩

theorem Stops.unique {read : DecoderRead} {result' : Except FormatError (List UInt8)}
    (h : Stops limit out read result) (h' : Stops limit out read result') : result = result' := by
  cases h <;> cases h' <;> rfl

/-- A read that ends the loop ends it at once. -/
theorem loopState_of_stops (hlimit : limit < usizeLimit) (hv : v.Within limit) (hout : v.out = [])
    (hcontinues : ∀ i < k, (reads i).Continues) (hle : (received reads k).length ≤ limit)
    (hstops : Stops limit (received reads k) (reads k) result) :
    loopState limit reads v (k + 1) = some (.returned result) := by
  obtain ⟨s, hs, htracks⟩ := exists_loopState reads hlimit hv hout (k + 1)
  rw [hs]
  cases s with
  | running v' =>
    obtain ⟨hall, hreceived, hwithin⟩ := htracks
    have hlarge := (hstops.not_continues (hall k (Nat.lt_succ_self k))).1
    have hsmall : v'.out.length ≤ limit := hwithin.length_le.trans hwithin.capacity_le
    rw [hreceived] at hsmall
    exact absurd hlarge (not_lt.mpr hsmall)
  | returned result' =>
    obtain ⟨j, hj, -, -, hstops'⟩ := htracks
    rcases Nat.lt_succ_iff_lt_or_eq.mp hj with hj | rfl
    · have hlarge := (hstops'.not_continues (hcontinues j hj)).1
      exact absurd hlarge (not_lt.mpr ((length_received_mono hj).trans hle))
    · rw [hstops.unique hstops']

end Run

/-! ## Decompression -/

/-- What `decompress_bytes` does with a frame, a decoder and a limit. -/
structure BoundedDecompression (limit : ℕ) (declared : Option ℕ)
    (opened : Except String (ℕ → DecoderRead)) : Prop where
  /-- It returns the chunks exactly when the declared size is within the limit, the decoder opens,
  and the stream ends without an error and within the limit. -/
  ok_iff : ∀ out, Returns limit declared opened (.ok out) ↔
    (∀ size ∈ declared, size ≤ limit) ∧ ∃ reads, opened = .ok reads ∧
      ∃ k, (∀ i < k, (reads i).Continues) ∧ reads k = .endOfStream ∧
        (received reads k).length ≤ limit ∧ out = received reads k
  /-- A declared size above the limit is refused before any read. -/
  declaredTooLarge : ∀ size ∈ declared, limit < size →
    decompress limit declared opened 0 = some (.returned (.error (.payloadTooLarge limit)))
  /-- The read that takes the total above the limit is refused at once. -/
  tooLarge : ∀ reads, (∀ size ∈ declared, size ≤ limit) → opened = .ok reads →
    ∀ k, (∀ i ≤ k, (reads i).Continues) → (received reads k).length ≤ limit →
      limit < (received reads (k + 1)).length →
        decompress limit declared opened (k + 1) =
          some (.returned (.error (.payloadTooLarge limit)))
  /-- No subtraction and no addition panics. -/
  noPanic : ∀ k, decompress limit declared opened k ≠ none
  /-- The buffer is never above the limit. -/
  bounded : ∀ k v, decompress limit declared opened k = some (.running v) → v.Within limit

section Decompression

variable {limit : ℕ} {declared : Option ℕ} {opened : Except String (ℕ → DecoderRead)}
  {reads : ℕ → DecoderRead} {k : ℕ}

/-- The buffer as it is allocated. -/
theorem within_withCapacity (h : ∀ size ∈ declared, size ≤ limit) :
    (Vec.withCapacity (declared.getD 0)).Within limit := by
  refine ⟨Nat.zero_le _, ?_⟩
  cases declared with
  | none => exact Nat.zero_le _
  | some size => exact h size rfl

theorem decompress_of_gt {size : ℕ} (hsize : size ∈ declared) (h : limit < size) :
    decompress limit declared opened k = some (.returned (.error (.payloadTooLarge limit))) := by
  obtain rfl := Option.mem_def.mp hsize
  exact if_pos (by simpa using h)

theorem decompress_of_le (h : ∀ size ∈ declared, size ≤ limit) :
    decompress limit declared opened k =
      match opened with
      | .error text => some (.returned (.error (.io text)))
      | .ok reads => loopState limit reads (.withCapacity (declared.getD 0)) k := by
  refine if_neg ?_
  cases declared with
  | none => simp
  | some size => simpa using h size rfl

/-- A stream that ends within the limit is returned. -/
theorem returns_of_stops (hlimit : limit < usizeLimit) (hdeclared : ∀ size ∈ declared, size ≤ limit)
    (hcontinues : ∀ i < k, (reads i).Continues) (hle : (received reads k).length ≤ limit)
    {result : Except FormatError (List UInt8)}
    (hstops : Stops limit (received reads k) (reads k) result) :
    Returns limit declared (.ok reads) result := by
  refine ⟨k + 1, ?_⟩
  rw [decompress_of_le hdeclared]
  exact loopState_of_stops hlimit (within_withCapacity hdeclared) rfl hcontinues hle hstops

/-- Bytes are returned by a stream that ends. -/
theorem ended_of_returns (hlimit : limit < usizeLimit) {out : List UInt8}
    (h : Returns limit declared opened (.ok out)) :
    (∀ size ∈ declared, size ≤ limit) ∧ ∃ reads, opened = .ok reads ∧
      ∃ k, (∀ i < k, (reads i).Continues) ∧ reads k = .endOfStream ∧
        (received reads k).length ≤ limit ∧ out = received reads k := by
  obtain ⟨k, hk⟩ := h
  have hdeclared : ∀ size ∈ declared, size ≤ limit := by
    intro size hsize
    by_contra hgt
    rw [decompress_of_gt hsize (not_le.mp hgt)] at hk
    exact absurd hk (by simp)
  rw [decompress_of_le hdeclared] at hk
  cases opened with
  | error text => exact absurd hk (by simp)
  | ok reads =>
    obtain ⟨s, hs, htracks⟩ :=
      exists_loopState reads hlimit (within_withCapacity hdeclared) rfl k
    obtain rfl := Option.some.inj (hs.symm.trans hk)
    obtain ⟨j, -, hcontinues, hle, hstops⟩ := htracks
    refine ⟨hdeclared, reads, rfl, j, hcontinues, ?_⟩
    generalize reads j = read at hstops
    cases hstops
    exact ⟨rfl, hle, rfl⟩

end Decompression

/-- Decompression is bounded, for every limit, declared size, and stream. -/
theorem boundedDecompression (limit : UInt64) (declared : Option ℕ)
    (opened : Except String (ℕ → DecoderRead)) :
    BoundedDecompression limit.toNat declared opened := by
  have hlimit : limit.toNat < usizeLimit := limit.toNat_lt
  generalize limit.toNat = limit at hlimit ⊢
  have hall : (∀ size ∈ declared, size ≤ limit) ∨ ∃ size ∈ declared, limit < size := by
    by_cases h : ∀ size ∈ declared, size ≤ limit
    · exact .inl h
    · push Not at h
      exact .inr h
  refine ⟨fun out => ⟨ended_of_returns hlimit, ?_⟩, fun size hsize h => decompress_of_gt hsize h,
    ?_, ?_, ?_⟩
  · rintro ⟨hdeclared, reads, rfl, k, hcontinues, hend, hle, rfl⟩
    exact returns_of_stops hlimit hdeclared hcontinues hle (hend ▸ .endOfStream)
  · rintro reads hdeclared rfl k hcontinues hle hlarge
    rw [decompress_of_le hdeclared]
    refine loopState_of_stops hlimit (within_withCapacity hdeclared) rfl
      (fun i hi => hcontinues i hi.le) hle ?_
    rw [received, List.length_append] at hlarge
    cases hread : reads k with
    | chunk c =>
      rw [hread] at hlarge
      exact .tooLarge c hlarge
    | interrupted =>
      rw [hread] at hlarge
      exact absurd hle (not_le.mpr hlarge)
    | error text => exact ((hread ▸ hcontinues k le_rfl : DecoderRead.Continues (.error text))).elim
    | endOfStream => exact (hread ▸ hcontinues k le_rfl : DecoderRead.Continues .endOfStream).elim
  · intro k
    rcases hall with hdeclared | ⟨size, hsize, hlarge⟩
    · rw [decompress_of_le hdeclared]
      cases opened with
      | error text => simp
      | ok reads =>
        obtain ⟨s, hs, -⟩ :=
          exists_loopState reads hlimit (within_withCapacity hdeclared) rfl k
        simp [hs]
    · rw [decompress_of_gt hsize hlarge]
      simp
  · intro k v hv
    rcases hall with hdeclared | ⟨size, hsize, hlarge⟩
    · rw [decompress_of_le hdeclared] at hv
      cases opened with
      | error text => exact absurd hv (by simp)
      | ok reads =>
        obtain ⟨s, hs, htracks⟩ :=
          exists_loopState reads hlimit (within_withCapacity hdeclared) rfl k
        obtain rfl := Option.some.inj (hs.symm.trans hv)
        exact htracks.2.2
    · rw [decompress_of_gt hsize hlarge] at hv
      exact absurd hv (by simp)

/-! ## A stream as the list of its reads -/

/-- The reads of a list, and then the end of the stream. -/
def readsOf (stream : List (Except String Chunk)) (k : ℕ) : DecoderRead :=
  match stream[k]? with
  | some (.ok c) => .chunk c
  | some (.error text) => .error text
  | none => .endOfStream

section Streams

variable {limit : ℕ}

theorem continues_readsOf {before : List Chunk} {rest : List (Except String Chunk)} {i : ℕ}
    (hi : i < before.length) : (readsOf (before.map .ok ++ rest) i).Continues := by
  have hget : (before.map Except.ok ++ rest)[i]? = some (.ok before[i]) := by
    rw [List.getElem?_append_left (by simpa using hi), List.getElem?_map,
      List.getElem?_eq_getElem hi]
    rfl
  rw [readsOf, hget]
  trivial

theorem readsOf_length (before : List Chunk) (rest : List (Except String Chunk)) :
    readsOf (before.map .ok ++ rest) before.length = readsOf rest 0 := by
  unfold readsOf
  rw [List.getElem?_append_right (by simp), List.length_map, Nat.sub_self]

/-- Collecting the rest of a stream ends as the loop does. -/
theorem exists_stops_readToLimit : ∀ (rest : List (Except String Chunk)) (before : List Chunk)
    {out : List UInt8},
    out = received (readsOf (before.map .ok ++ rest)) before.length → out.length ≤ limit →
      ∃ k, (∀ i < k, (readsOf (before.map .ok ++ rest) i).Continues) ∧
        (received (readsOf (before.map .ok ++ rest)) k).length ≤ limit ∧
          Stops limit (received (readsOf (before.map .ok ++ rest)) k)
            (readsOf (before.map .ok ++ rest) k)
            (readToLimit limit (rest.map fun read => read.map Chunk.bytes) out)
  | [], before, out, hout, hle => by
    refine ⟨before.length, fun i hi => continues_readsOf hi, hout ▸ hle, ?_⟩
    rw [readsOf_length, ← hout]
    exact .endOfStream
  | .error text :: rest, before, out, hout, hle => by
    refine ⟨before.length, fun i hi => continues_readsOf hi, hout ▸ hle, ?_⟩
    rw [readsOf_length, ← hout]
    exact .error text
  | .ok c :: rest, before, out, hout, hle => by
    have hread : readsOf (before.map .ok ++ .ok c :: rest) before.length = .chunk c :=
      readsOf_length before (.ok c :: rest)
    rw [List.map_cons, Except.map, readToLimit]
    split_ifs with hlarge
    · refine ⟨before.length, fun i hi => continues_readsOf hi, hout ▸ hle, ?_⟩
      rw [hread, ← hout]
      exact .tooLarge c (by omega)
    · have hnext : out ++ c.bytes =
          received (readsOf (before.map .ok ++ .ok c :: rest)) (before ++ [c]).length := by
        rw [List.length_append, List.length_singleton, received, hread, ← hout]
        rfl
      have hstream : before.map Except.ok ++ .ok c :: rest =
          ((before ++ [c]).map .ok ++ rest : List (Except String Chunk)) := by
        simp
      rw [hstream] at hnext ⊢
      exact exists_stops_readToLimit rest (before ++ [c]) hnext (by rw [List.length_append]; omega)

/-- `decompressBytes`, which has the stream as a list of chunks, returns what the loop returns. -/
theorem returns_decompressBytes (hlimit : limit < usizeLimit) {Z : Zstd} {data : List UInt8}
    {stream : List (Except String Chunk)}
    (hstream : Z.decoder data = .ok (stream.map fun read => read.map Chunk.bytes)) :
    Returns limit (Z.getFrameContentSize data) (.ok (readsOf stream))
      (decompressBytes Z data limit) := by
  unfold decompressBytes
  rw [hstream]
  split_ifs with hlarge
  · obtain ⟨size, hsize, hgt⟩ := (Option.any_eq_true _ _).mp hlarge
    exact ⟨0, decompress_of_gt hsize (by simpa using hgt)⟩
  · have hdeclared : ∀ size ∈ Z.getFrameContentSize data, size ≤ limit := by
      intro size hsize
      by_contra hgt
      exact hlarge ((Option.any_eq_true _ _).mpr ⟨size, hsize, by simpa using hgt⟩)
    obtain ⟨k, hcontinues, hle, hstops⟩ :=
      exists_stops_readToLimit stream [] rfl (Nat.zero_le limit)
    exact returns_of_stops hlimit hdeclared hcontinues hle hstops

end Streams

end LocalCache
