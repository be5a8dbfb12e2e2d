import ThirdParty.Eth.Fifo

/-!
# `Eth.Correctness.Reassembly` — frames come out of the FIFO whole and in step

`low_level_receive` stores the first word apart and copies the rest with the first pbuf shifted by a word. For a length
of at least one word this is the copy of the whole frame into the chain (`receiveFrame_eq_copyChain`), and since the
buffers hold whole words, what one buffer leaves over never splits a word: the copy reads as many words as the drain of
a frame without buffers does.
-/

namespace ThirdParty.Eth

open Lib

variable {data : Nat → Nat} {size : Nat} {garbage : Nat → Nat → Byte}

/-! ## Copying into one pbuf -/

/-- What `pbuf_alloc` sets in a pbuf. -/
def RxPbuf.fields (q : RxPbuf) : Nat × Nat × Nat := (q.payload, q.len, q.totLen)

/-- The stores that fill `n` words from an offset on. -/
def storesFrom (off n : Nat) : List Nat := (List.range n).map fun k => off + 4 * k

theorem storesFrom_succ (off n : Nat) : storesFrom off (n + 1) = off :: storesFrom (off + 4) n := by
  simp only [storesFrom, List.range_succ_eq_map, List.map_cons, List.map_map]
  congr 1
  apply List.map_congr_left
  intro k _
  show off + 4 * (k + 1) = off + 4 + 4 * k
  omega

theorem mem_storesFrom {off n x : Nat} (h : x ∈ storesFrom off n) : x + 4 ≤ off + 4 * n := by
  obtain ⟨k, hk, rfl⟩ := List.mem_map.mp h
  have := List.mem_range.mp hk
  omega

/-- The bytes of a word just stored. -/
theorem bytesAt_store (q : RxPbuf) (off w : Nat) : bytesAt (q.store off w).area off 4 = wordBytes w := by
  have hbyte : ∀ k, k < 4 → (q.store off w).area (off + k) = (wordBytes w).getD k 0 := by
    intro k hk
    show (if off ≤ off + k ∧ off + k < off + 4 then (wordBytes w).getD (off + k - off) 0 else q.area (off + k)) = _
    rw [if_pos (by omega), Nat.add_sub_cancel_left]
  apply List.ext_getElem (by rw [bytesAt_length, wordBytes_length])
  intro k hk hk'
  rw [bytesAt_length] at hk
  have := hbyte k hk
  rw [List.getD_eq_getElem?_getD, List.getElem?_eq_getElem hk'] at this
  simpa [bytesAt] using this

theorem store_area_of_lt (q : RxPbuf) {off w k : Nat} (h : k < off) : (q.store off w).area k = q.area k := by
  show (if off ≤ k ∧ k < off + 4 then _ else q.area k) = _
  rw [if_neg (by omega)]

/-- `n` words from read `pos` on were stored into `q` from offset `off` on, which made it `q'`. -/
structure Copied (data : Nat → Nat) (pos n off : Nat) (q q' : RxPbuf) : Prop where
  fields : q'.fields = q.fields
  stores : q'.stores = q.stores ++ storesFrom off n
  keep   : ∀ k, k < off → q'.area k = q.area k
  bytes  : bytesAt q'.area off (4 * n) = wordsBytes (wordsAt data pos n)

theorem Copied.nil (data : Nat → Nat) (pos off : Nat) (q : RxPbuf) : Copied data pos 0 off q q :=
  ⟨rfl, (List.append_nil _).symm, fun _ _ => rfl, rfl⟩

theorem Copied.cons {pos n off : Nat} {q q' : RxPbuf}
    (h : Copied data (pos + 1) n (off + 4) (q.store off (data pos)) q') : Copied data pos (n + 1) off q q' := by
  obtain ⟨hfields, hstores, hkeep, hbytes⟩ := h
  refine ⟨hfields, ?_, ?_, ?_⟩
  · rw [hstores, storesFrom_succ]
    show (q.stores ++ [off]) ++ storesFrom (off + 4) n = _
    rw [List.append_assoc, List.singleton_append]
  · intro k hk
    rw [hkeep k (by omega), store_area_of_lt q hk]
  · have hfirst : bytesAt q'.area off 4 = wordBytes (data pos) := by
      rw [← bytesAt_store q off (data pos)]
      apply List.map_congr_left
      intro k hk
      exact hkeep (off + k) (by have := List.mem_range.mp hk; omega)
    rw [show 4 * (n + 1) = 4 + 4 * n by omega, bytesAt_add, hfirst, hbytes, wordsAt_succ, wordsBytes_cons]

/-- The copy loop from index `i` on. -/
theorem copyPbuf_spec (fuel : Nat) {i pos : Nat} {q : RxPbuf} (hfuel : q.len ≤ i + fuel) :
    ∃ q', copyPbuf data fuel i pos q = (pos + (q.len - i + 3) / 4, q') ∧
      Copied data pos ((q.len - i + 3) / 4) (q.payload + i) q q' := by
  induction fuel generalizing i pos q with
  | zero =>
      rw [show (q.len - i + 3) / 4 = 0 by omega]
      exact ⟨q, rfl, .nil data pos _ q⟩
  | succ fuel ih =>
      rw [copyPbuf]
      by_cases hlt : i < q.len
      · rw [if_pos hlt]
        obtain ⟨q', heq, hcopied⟩ := @ih (i + 4) (pos + 1) (q.store (q.payload + i) (data pos))
          (show q.len ≤ i + 4 + fuel by omega)
        have hn : (q.len - i + 3) / 4 = (q.len - (i + 4) + 3) / 4 + 1 := by omega
        refine ⟨q', ?_, ?_⟩
        · rw [heq, hn]
          show (pos + 1 + (q.len - (i + 4) + 3) / 4, q') = _
          rw [Nat.add_assoc, Nat.add_comm 1]
        · rw [hn]
          exact .cons hcopied
      · rw [if_neg hlt, show (q.len - i + 3) / 4 = 0 by omega]
        exact ⟨q, rfl, .nil data pos _ q⟩

/-- With fuel for the bound, more fuel changes nothing. -/
theorem copyPbuf_fuel {fuel fuel' i pos : Nat} {q : RxPbuf} (h : q.len ≤ i + fuel) (h' : q.len ≤ i + fuel') :
    copyPbuf data fuel i pos q = copyPbuf data fuel' i pos q := by
  induction fuel generalizing fuel' i pos q with
  | zero =>
      cases fuel' with
      | zero => rfl
      | succ fuel' => rw [copyPbuf, copyPbuf, if_neg (by omega)]
  | succ fuel ih =>
      cases fuel' with
      | zero => rw [copyPbuf, copyPbuf, if_neg (by omega)]
      | succ fuel' =>
          rw [copyPbuf, copyPbuf]
          by_cases hlt : i < q.len
          · rw [if_pos hlt, if_pos hlt]
            exact ih (show q.len ≤ i + 4 + fuel by omega) (show q.len ≤ i + 4 + fuel' by omega)
          · rw [if_neg hlt, if_neg hlt]

/-- A pbuf shifted by a word is copied into like the pbuf itself, a word further on. -/
theorem copyPbuf_shift (fuel : Nat) {i pos : Nat} {q : RxPbuf} (hlen : 4 ≤ q.len) :
    copyPbuf data fuel i pos { q with payload := q.payload + 4, len := q.len - 4 } =
      ((copyPbuf data fuel (i + 4) pos q).1,
        { (copyPbuf data fuel (i + 4) pos q).2 with payload := q.payload + 4, len := q.len - 4 }) := by
  induction fuel generalizing i pos q with
  | zero => rfl
  | succ fuel ih =>
      rw [copyPbuf, copyPbuf]
      by_cases hlt : i + 4 < q.len
      · rw [if_pos hlt, if_pos (show i < q.len - 4 by omega)]
        have hstore : RxPbuf.store { q with payload := q.payload + 4, len := q.len - 4 } (q.payload + 4 + i)
          (data pos) =
            { q.store (q.payload + (i + 4)) (data pos) with payload := q.payload + 4, len := q.len - 4 } := by
          rw [Nat.add_assoc, Nat.add_comm 4 i]
          rfl
        show copyPbuf data fuel (i + 4) (pos + 1)
          (RxPbuf.store { q with payload := q.payload + 4, len := q.len - 4 } (q.payload + 4 + i) (data pos)) = _
        rw [hstore]
        exact @ih (i + 4) (pos + 1) (q.store (q.payload + (i + 4)) (data pos)) hlen
      · rw [if_neg hlt, if_neg (show ¬ i < q.len - 4 by omega)]

/-! ## Copying into a chain -/

/-- A chain of the pool takes a frame: every word read, fields as they were, the bytes in order, all stores inside the
    buffers. -/
theorem copyChain_poolTail (hsize : 0 < size) (h4 : 4 ∣ size) (fuel : Nat) {k rem pos : Nat} (hfuel : rem ≤ fuel) :
    ∃ chain, copyChain data pos (poolTail size garbage fuel k rem) = (pos + (rem + 3) / 4, chain) ∧
      chain.map RxPbuf.fields = (poolTail size garbage fuel k rem).map RxPbuf.fields ∧
      chain.flatMap RxPbuf.contents = (wordsBytes (wordsAt data pos ((rem + 3) / 4))).take rem ∧
      ∀ q ∈ chain, ∀ off ∈ q.stores, off + 4 ≤ size := by
  obtain ⟨m, rfl⟩ := h4
  induction fuel generalizing k rem pos with
  | zero =>
      rw [show rem = 0 by omega]
      exact ⟨[], rfl, rfl, rfl, fun q hq => absurd hq List.not_mem_nil⟩
  | succ fuel ih =>
      rw [poolTail]
      by_cases hpos : 0 < rem
      · rw [if_pos hpos]
        generalize hq : (⟨garbage k, 0, min rem (4 * m), rem, []⟩ : RxPbuf) = q
        have hlen : q.len = min rem (4 * m) := by rw [← hq]
        have hpayload : q.payload = 0 := by rw [← hq]
        have hnone : q.stores = [] := by rw [← hq]
        obtain ⟨q', hcopy, hfields, hstores, -, hbytes⟩ := @copyPbuf_spec data q.len 0 pos q (by omega)
        rw [Nat.sub_zero] at hcopy hstores hbytes
        obtain ⟨chain, hchain, hrest, hcontents, hinside⟩ :=
          @ih (k + 1) (rem - min rem (4 * m)) (pos + (q.len + 3) / 4) (by omega)
        rw [hpayload, Nat.zero_add] at hbytes hstores
        -- the words of this buffer and of the others are the words of the whole
        have hn : (rem + 3) / 4 = (q.len + 3) / 4 + (rem - min rem (4 * m) + 3) / 4 := by omega
        refine ⟨q' :: chain, ?_, ?_, ?_, ?_⟩
        · simp only [copyChain, hcopy, hchain]
          rw [hn, Nat.add_assoc]
        · rw [List.map_cons, List.map_cons, hfields, hrest]
        · have hthis : q'.contents = (wordsBytes (wordsAt data pos ((q.len + 3) / 4))).take q.len := by
            have hpl : q'.payload = 0 := by rw [← hpayload]; exact congrArg Prod.fst hfields
            have hln : q'.len = q.len := congrArg (fun f => f.2.1) hfields
            rw [RxPbuf.contents, hpl, hln, ← hbytes, bytesAt_take (by omega)]
          rw [List.flatMap_cons, hthis, hcontents, hn, wordsAt_add, wordsBytes_append, List.take_append,
            wordsBytes_length, wordsAt_length]
          -- either this buffer is the last one, or it is full and holds whole words
          by_cases hlast : rem ≤ 4 * m
          · rw [show q.len = rem by omega, show rem - min rem (4 * m) = 0 by omega,
              show rem - 4 * ((rem + 3) / 4) = 0 by omega, List.take_zero]
          · have htake : ∀ n, 4 * m ≤ n →
                (wordsBytes (wordsAt data pos m)).take n = wordsBytes (wordsAt data pos m) := by
              intro n hn
              apply List.take_of_length_le
              rw [wordsBytes_length, wordsAt_length]
              exact hn
            rw [show q.len = 4 * m by omega, show (4 * m + 3) / 4 = m by omega,
              show rem - min rem (4 * m) = rem - 4 * m by omega, htake (4 * m) (Nat.le_refl _), htake rem (by omega)]
        · intro p hp off hoff
          rcases List.mem_cons.mp hp with rfl | hp
          · rw [hstores, hnone, List.nil_append] at hoff
            have := mem_storesFrom hoff
            omega
          · exact hinside p hp off hoff
      · rw [if_neg hpos, show rem = 0 by omega]
        exact ⟨[], rfl, rfl, rfl, fun q hq => absurd hq List.not_mem_nil⟩

/-! ## One frame -/

/-- The drain loop reads the words after the first one. -/
theorem drainFrame_eq {len : Nat} (fuel : Nat) {i pos : Nat} (hfuel : len ≤ i + fuel) :
    drainFrame len fuel i pos = pos + (len - i + 3) / 4 := by
  induction fuel generalizing i pos with
  | zero =>
      rw [drainFrame]
      omega
  | succ fuel ih =>
      rw [drainFrame]
      by_cases hlt : i < len
      · rw [if_pos hlt, ih (by omega)]
        omega
      · rw [if_neg hlt]
        omega

/-- The chain of the pool starts like its tail does. -/
theorem pbufAllocPool_eq {len : Nat} (h : 0 < len) :
    pbufAllocPool size garbage len = poolTail size garbage (len + 1) 0 len := by
  rw [pbufAllocPool, poolTail, if_pos h]

/-- The first word stored apart, and the first pbuf shifted for the copy, come to a copy of the whole frame. -/
theorem receiveFrame_eq_copyChain (hsize : 0 < size) (h4 : 4 ∣ size) {pos : Nat} (hlen : 4 ≤ data pos % 65536) :
    receiveFrame size data (some garbage) pos =
      ((copyChain data pos (pbufAllocPool size garbage (data pos % 65536))).1,
        some (copyChain data pos (pbufAllocPool size garbage (data pos % 65536))).2) := by
  generalize hL : data pos % 65536 = len at hlen ⊢
  have htemp : toU16 (data pos) = len := by rw [toU16_natCast, hL]
  have hlt : len < 65536 := by omega
  have hsize4 : 4 ≤ size := Nat.le_of_dvd hsize h4
  have hfirst : 4 ≤ min len size := by omega
  generalize hq : (⟨garbage 0, 0, min len size, len, []⟩ : RxPbuf) = q
  have hqlen : q.len = min len size := by rw [← hq]
  have hqpayload : q.payload = 0 := by rw [← hq]
  obtain ⟨q', hcopy, hcopied⟩ := @copyPbuf_spec data (q.len - 4) 4 (pos + 1) (q.store q.payload (data pos))
    (show q.len ≤ 4 + (q.len - 4) by omega)
  have hpayload : q'.payload = q.payload := congrArg Prod.fst hcopied.fields
  have hlength : q'.len = q.len := congrArg (fun f => f.2.1) hcopied.fields
  -- the copy of the whole chain begins with the first word
  have hwhole : copyPbuf data q.len 0 pos q = (pos + 1 + (q.len - 4 + 3) / 4, q') := by
    have hstep : copyPbuf data (q.len - 1 + 1) 0 pos q =
        copyPbuf data (q.len - 1) 4 (pos + 1) (q.store q.payload (data pos)) := by
      rw [copyPbuf, if_pos (by omega)]
      rfl
    rw [Nat.sub_add_cancel (by omega)] at hstep
    rw [hstep, ← show _ = (pos + 1 + (q.len - 4 + 3) / 4, q') from hcopy]
    exact copyPbuf_fuel (show q.len ≤ 4 + (q.len - 1) by omega) (show q.len ≤ 4 + (q.len - 4) by omega)
  -- the copy that the source makes, into the shifted pbuf
  have hshifted : copyPbuf data (q.len - 4) 0 (pos + 1)
      { q.store q.payload (data pos) with payload := q.payload + 4, len := q.len - 4 } =
        (pos + 1 + (q.len - 4 + 3) / 4, { q' with payload := q.payload + 4, len := q.len - 4 }) := by
    have hshift := @copyPbuf_shift data (q.len - 4) 0 (pos + 1) (q.store q.payload (data pos))
      (show 4 ≤ q.len by omega)
    rw [Nat.zero_add, hcopy] at hshift
    exact hshift
  have hsub : toU16 ((q.len : Int) - 4) = q.len - 4 := by
    unfold toU16
    omega
  have hadd : toU16 (((q.len - 4 : Nat) : Int) + 4) = q.len := by
    unfold toU16
    omega
  rw [receiveFrame, htemp]
  simp only [Option.map_some, pbufAllocPool, hq, copyChain, hwhole]
  rw [show (q.store q.payload (data pos)).len = q.len from rfl,
    show (q.store q.payload (data pos)).payload = q.payload from rfl, hsub]
  simp only [hshifted, hadd, Nat.add_sub_cancel]
  rw [← hpayload, ← hlength]

/-- A frame that finds no buffers is drained. -/
theorem receiveFrame_none {pos : Nat} (hlen : 4 ≤ data pos % 65536) :
    receiveFrame size data none pos = (pos + (data pos % 65536 + 3) / 4, none) := by
  rw [receiveFrame, toU16_natCast]
  show (drainFrame (data pos % 65536) (data pos % 65536) 4 (pos + 1), none) = _
  rw [drainFrame_eq _ (by omega),
    show pos + 1 + (data pos % 65536 - 4 + 3) / 4 = pos + (data pos % 65536 + 3) / 4 by omega]

/-- A frame that finds buffers fills them. -/
theorem receiveFrame_some (hsize : 0 < size) (h4 : 4 ∣ size) (garbage : Nat → Nat → Byte) {pos : Nat}
    (hlen : 4 ≤ data pos % 65536) :
    ∃ chain, receiveFrame size data (some garbage) pos = (pos + (data pos % 65536 + 3) / 4, some chain) ∧
      chain.map RxPbuf.fields = (pbufAllocPool size garbage (data pos % 65536)).map RxPbuf.fields ∧
      chain.flatMap RxPbuf.contents =
        (wordsBytes (wordsAt data pos ((data pos % 65536 + 3) / 4))).take (data pos % 65536) ∧
      ∀ q ∈ chain, ∀ off ∈ q.stores, off + 4 ≤ size := by
  have hpool := @pbufAllocPool_eq size garbage (data pos % 65536) (by omega)
  obtain ⟨chain, hchain, hfields, hcontents, hinside⟩ := @copyChain_poolTail data size garbage hsize h4
    (data pos % 65536 + 1) 0 (data pos % 65536) pos (Nat.le_succ _)
  rw [← hpool] at hchain hfields
  refine ⟨chain, ?_, hfields, hcontents, hinside⟩
  rw [receiveFrame_eq_copyChain hsize h4 hlen, hchain]

/-! ## A sequence of frames -/

/-- A frame as the MAC puts it into the FIFO: the length in the first word tells how many words there are. -/
structure RxFrame where
  words : List Nat
  least : 4 ≤ words.headD 0 % 65536
  count : words.length = (words.headD 0 % 65536 + 3) / 4

def RxFrame.len (f : RxFrame) : Nat := f.words.headD 0 % 65536

/-- The bytes of a frame, the last word's padding left out. -/
def RxFrame.bytes (f : RxFrame) : List Byte := (wordsBytes f.words).take f.len

/-- `low_level_receive` for one frame after the other, with the answers of `pbuf_alloc`: the reads and the chains
    returned. -/
def receiveFrames (size : Nat) (data : Nat → Nat) : List (Option (Nat → Nat → Byte)) → Nat → Nat × List (List RxPbuf)
  | [],              pos => (pos, [])
  | alloc :: allocs, pos =>
      let (pos, p) := receiveFrame size data alloc pos
      let (pos, ps) := receiveFrames size data allocs pos
      (pos, p.toList ++ ps)

/-- Frames that follow each other in the FIFO, with any answers of `pbuf_alloc`. -/
theorem receiveFrames_spec (hsize : 0 < size) (h4 : 4 ∣ size) (frames : List (RxFrame × Option (Nat → Nat → Byte)))
    {pos : Nat} (hdata : ∀ k (hk : k < (frames.flatMap (·.1.words)).length),
      data (pos + k) = (frames.flatMap (·.1.words))[k]) :
    (receiveFrames size data (frames.map (·.2)) pos).1 = pos + (frames.flatMap (·.1.words)).length ∧
      (receiveFrames size data (frames.map (·.2)) pos).2.map (·.flatMap RxPbuf.contents) =
        (frames.filter (·.2.isSome)).map (·.1.bytes) := by
  induction frames generalizing pos with
  | nil => exact ⟨rfl, rfl⟩
  | cons fa frames ih =>
      obtain ⟨f, alloc⟩ := fa
      simp only [List.flatMap_cons] at hdata ⊢
      -- the words of the first frame, its length, and the others
      have hwords : wordsAt data pos f.words.length = f.words := by
        apply wordsAt_eq
        intro k hk
        rw [hdata k (by rw [List.length_append]; omega), List.getElem_append_left hk]
      have hpos : 0 < f.words.length := by rw [f.count]; have := f.least; omega
      have hhead : data pos = f.words.headD 0 := by
        have hget := hdata 0 (by rw [List.length_append]; omega)
        rw [Nat.add_zero, List.getElem_append_left hpos] at hget
        rw [hget, List.headD_eq_head?_getD, List.head?_eq_getElem?, List.getElem?_eq_getElem hpos]
        rfl
      have hlen : 4 ≤ data pos % 65536 := by rw [hhead]; exact f.least
      have hcount : f.words.length = (data pos % 65536 + 3) / 4 := by rw [hhead]; exact f.count
      obtain ⟨hreads, hdelivered⟩ := ih (fun k hk => by
        rw [Nat.add_assoc, hdata (f.words.length + k) (by rw [List.length_append]; omega),
          List.getElem_append_right (Nat.le_add_right _ _)]
        simp only [Nat.add_sub_cancel_left])
      cases alloc with
      | none =>
          have hdrain := @receiveFrame_none data size pos hlen
          rw [← hcount] at hdrain
          simp only [List.map_cons, receiveFrames, hdrain]
          refine ⟨?_, ?_⟩
          · rw [hreads, List.length_append, Nat.add_assoc]
          · rw [List.filter_cons_of_neg (by simp)]
            exact hdelivered
      | some garbage =>
          obtain ⟨chain, hchain, -, hcontents, -⟩ := receiveFrame_some hsize h4 garbage hlen
          rw [← hcount] at hchain hcontents
          rw [hwords, hhead] at hcontents
          simp only [List.map_cons, receiveFrames, hchain]
          refine ⟨?_, ?_⟩
          · rw [hreads, List.length_append, Nat.add_assoc]
          · rw [List.filter_cons_of_pos rfl, List.map_cons, ← hdelivered]
            show chain.flatMap RxPbuf.contents :: _ = f.bytes :: _
            rw [hcontents]
            rfl

/-- **Reception stays in step**: for every pool of buffers of whole words, `low_level_receive` reads `⌈len / 4⌉` words
    whatever `pbuf_alloc` answers, and the chain it returns holds the first `len` of their bytes with the fields of the
    allocation; so of the frames that follow each other in the FIFO, it delivers those that found buffers, whole and in
    order. -/
theorem receive_in_step (hsize : 0 < size) (h4 : 4 ∣ size) :
    (∀ (data : Nat → Nat) (pos : Nat), 4 ≤ data pos % 65536 →
      receiveFrame size data none pos = (pos + (data pos % 65536 + 3) / 4, none) ∧
      ∀ garbage, ∃ chain,
        receiveFrame size data (some garbage) pos = (pos + (data pos % 65536 + 3) / 4, some chain) ∧
        chain.map RxPbuf.fields = (pbufAllocPool size garbage (data pos % 65536)).map RxPbuf.fields ∧
        chain.flatMap RxPbuf.contents =
          (wordsBytes (wordsAt data pos ((data pos % 65536 + 3) / 4))).take (data pos % 65536)) ∧
    ∀ (frames : List (RxFrame × Option (Nat → Nat → Byte))) (data : Nat → Nat) (pos : Nat),
      (∀ k (hk : k < (frames.flatMap (·.1.words)).length), data (pos + k) = (frames.flatMap (·.1.words))[k]) →
      (receiveFrames size data (frames.map (·.2)) pos).1 = pos + (frames.flatMap (·.1.words)).length ∧
      (receiveFrames size data (frames.map (·.2)) pos).2.map (·.flatMap RxPbuf.contents) =
        (frames.filter (·.2.isSome)).map (·.1.bytes) := by
  refine ⟨?_, ?_⟩
  · intro data pos hlen
    refine ⟨receiveFrame_none hlen, ?_⟩
    intro garbage
    obtain ⟨chain, hchain, hfields, hcontents, -⟩ := receiveFrame_some hsize h4 garbage hlen
    exact ⟨chain, hchain, hfields, hcontents⟩
  · intro frames data pos hdata
    exact receiveFrames_spec hsize h4 frames hdata

/-- A frame of ten bytes in buffers of eight, after one that found none. -/
def shortFrames : List (RxFrame × Option (Nat → Nat → Byte)) :=
  [(⟨[6, 0x0201], by decide, by decide⟩, none),
    (⟨[0x020a000a, 0x06050403, 0x0807], by decide, by decide⟩, some fun _ _ => 0xff)]

/-- Their words from read 1 on. -/
def shortData (pos : Nat) : Nat := (shortFrames.flatMap (·.1.words)).getD (pos - 1) 0

theorem receive_in_step_short :
    (receiveFrames 8 shortData (shortFrames.map (·.2)) 1).1 = 6 ∧
      (receiveFrames 8 shortData (shortFrames.map (·.2)) 1).2.map (·.flatMap RxPbuf.contents) =
        [[10, 0, 10, 2, 3, 4, 5, 6, 7, 8]] ∧
      ∃ chain, receiveFrame 8 shortData (some fun _ _ => 0xff) 3 = (6, some chain) ∧
        chain.map RxPbuf.fields = [(0, 8, 10), (0, 2, 2)] := by
  obtain ⟨hframe, hframes⟩ := @receive_in_step 8 (by decide) (by decide)
  obtain ⟨hreads, hdelivered⟩ := hframes shortFrames shortData 1 (by decide)
  obtain ⟨chain, hchain, hfields, -⟩ := (hframe shortData 3 (by decide)).2 fun _ _ => 0xff
  refine ⟨hreads, hdelivered, chain, hchain, hfields⟩

end ThirdParty.Eth
