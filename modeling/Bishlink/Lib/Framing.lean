import Mathlib.Data.List.Induction

/-!
# Messages in a byte stream

A parser that looks at the bytes it has so far and finds a whole message at their start, or
too little of one, or something it refuses. `drain` takes messages until the parser stops,
`feed` appends a chunk and drains again, as a receiver does whenever bytes arrive.

The parser is `Stable` when more bytes do not change what it has found. The messages then do
not depend on how the stream is cut into chunks (`feedAll_eq_drain`).
-/

namespace Framing

variable {ι ρ : Type*}

/-- What a parser finds at the start of its input. -/
inductive Parsed (ι ρ : Type*) where
  | more
  | stop (reason : ρ)
  | item (i : ι) (consumed : ℕ)
deriving DecidableEq

/-- More bytes do not change what was found, and a message takes some of the bytes. -/
structure Stable (parse : List UInt8 → Parsed ι ρ) : Prop where
  item_pos : ∀ {bs i n}, parse bs = .item i n → 0 < n ∧ n ≤ bs.length
  item_append : ∀ {bs i n}, parse bs = .item i n → ∀ more, parse (bs ++ more) = .item i n
  stop_append : ∀ {bs r}, parse bs = .stop r → ∀ more, parse (bs ++ more) = .stop r

/-- The messages taken from a stream, the bytes left over, and why the parser refused them. -/
structure Drained (ι ρ : Type*) where
  items : List ι
  rest : List UInt8
  stopped : Option ρ

/-- Put messages in front. -/
def Drained.prepend (is : List ι) (d : Drained ι ρ) : Drained ι ρ :=
  { d with items := is ++ d.items }

/-- Take messages as long as the fuel lasts. -/
def drainFuel (parse : List UInt8 → Parsed ι ρ) : ℕ → List UInt8 → Drained ι ρ
  | 0, bs => ⟨[], bs, none⟩
  | fuel + 1, bs =>
    match parse bs with
    | .more => ⟨[], bs, none⟩
    | .stop r => ⟨[], bs, some r⟩
    | .item i n => (drainFuel parse fuel (bs.drop n)).prepend [i]

/-- Take messages until the parser stops: each takes a byte at least. -/
def drain (parse : List UInt8 → Parsed ι ρ) (bs : List UInt8) : Drained ι ρ :=
  drainFuel parse (bs.length + 1) bs

/-- A chunk arrives. Nothing is taken any more once the parser has refused. -/
def Drained.feed (parse : List UInt8 → Parsed ι ρ) (d : Drained ι ρ) (chunk : List UInt8) :
    Drained ι ρ :=
  match d.stopped with
  | some _ => { d with rest := d.rest ++ chunk }
  | none => (drain parse (d.rest ++ chunk)).prepend d.items

/-- The chunks arrive one after the other. -/
def feedAll (parse : List UInt8 → Parsed ι ρ) (chunks : List (List UInt8)) : Drained ι ρ :=
  chunks.foldl (Drained.feed parse) ⟨[], [], none⟩

variable {parse : List UInt8 → Parsed ι ρ}

/-- Fuel above the number of bytes is enough. -/
theorem drainFuel_of_lt (hs : Stable parse) {fuel : ℕ} {bs : List UInt8} (h : bs.length < fuel) :
    drainFuel parse fuel bs = drain parse bs := by
  have key : ∀ m fuel fuel' (bs : List UInt8), bs.length ≤ m → bs.length < fuel →
      bs.length < fuel' → drainFuel parse fuel bs = drainFuel parse fuel' bs := by
    intro m
    induction m with
    | zero =>
      intro fuel fuel' bs hm hf hf'
      obtain ⟨fuel, rfl⟩ := Nat.exists_eq_succ_of_ne_zero (by omega : fuel ≠ 0)
      obtain ⟨fuel', rfl⟩ := Nat.exists_eq_succ_of_ne_zero (by omega : fuel' ≠ 0)
      simp only [drainFuel]
      split
      · rfl
      · rfl
      · rename_i hitem
        have hpos := hs.item_pos hitem
        omega
    | succ m ih =>
      intro fuel fuel' bs hm hf hf'
      obtain ⟨fuel, rfl⟩ := Nat.exists_eq_succ_of_ne_zero (by omega : fuel ≠ 0)
      obtain ⟨fuel', rfl⟩ := Nat.exists_eq_succ_of_ne_zero (by omega : fuel' ≠ 0)
      simp only [drainFuel]
      split
      · rfl
      · rfl
      · rename_i n hitem
        have hpos := hs.item_pos hitem
        have hdrop : (bs.drop n).length = bs.length - n := List.length_drop
        rw [ih fuel fuel' (bs.drop n) (by omega) (by omega) (by omega)]
  exact key bs.length fuel (bs.length + 1) bs (Nat.le_refl _) h (Nat.lt_succ_self _)

theorem drain_more {bs : List UInt8} (h : parse bs = .more) : drain parse bs = ⟨[], bs, none⟩ := by
  simp [drain, drainFuel, h]

theorem drain_stop {bs : List UInt8} {r : ρ} (h : parse bs = .stop r) :
    drain parse bs = ⟨[], bs, some r⟩ := by
  simp [drain, drainFuel, h]

theorem drain_item (hs : Stable parse) {bs : List UInt8} {i : ι} {n : ℕ}
    (h : parse bs = .item i n) :
    drain parse bs = (drain parse (bs.drop n)).prepend [i] := by
  have hpos := hs.item_pos h
  have hdrop : (bs.drop n).length = bs.length - n := List.length_drop
  rw [drain, drainFuel]
  simp only [h]
  rw [drainFuel_of_lt hs (by omega)]

@[simp] theorem prepend_nil (d : Drained ι ρ) : d.prepend [] = d := rfl

/-- Draining a stream that goes on is draining its front and feeding the rest. -/
theorem drain_append (hs : Stable parse) (bs chunk : List UInt8) :
    drain parse (bs ++ chunk) = (drain parse bs).feed parse chunk := by
  induction hlen : bs.length using Nat.strongRecOn generalizing bs with
  | ind m ih =>
    cases hparse : parse bs with
    | more => rw [drain_more hparse, Drained.feed, prepend_nil]
    | stop r => rw [drain_stop hparse, drain_stop (hs.stop_append hparse chunk), Drained.feed]
    | item i n =>
      obtain ⟨hpos, hle⟩ := hs.item_pos hparse
      have hdrop : (bs.drop n).length = bs.length - n := List.length_drop
      rw [drain_item hs (hs.item_append hparse chunk), List.drop_append_of_le_length hle,
        ih (bs.drop n).length (by omega) (bs.drop n) rfl, drain_item hs hparse]
      simp only [Drained.feed, Drained.prepend]
      split <;> simp

/-- The messages do not depend on the chunks. -/
theorem feedAll_eq_drain (hs : Stable parse) (hnil : parse [] = .more)
    (chunks : List (List UInt8)) : feedAll parse chunks = drain parse chunks.flatten := by
  induction chunks using List.reverseRecOn with
  | nil => rw [List.flatten_nil, drain_more hnil, feedAll, List.foldl_nil]
  | append_singleton chunks chunk ih =>
    rw [feedAll, List.foldl_append] at *
    rw [ih, List.foldl_cons, List.foldl_nil, List.flatten_append, List.flatten_singleton,
      drain_append hs]

/-- A stream of whole messages is taken message by message. -/
theorem drain_frames (hs : Stable parse) (hnil : parse [] = .more) {encode : ι → List UInt8}
    {is : List ι} (h : ∀ i ∈ is, parse (encode i) = .item i (encode i).length) :
    drain parse (is.flatMap encode) = ⟨is, [], none⟩ := by
  induction is with
  | nil => rw [List.flatMap_nil, drain_more hnil]
  | cons i is ih =>
    rw [List.flatMap_cons, drain_item hs (hs.item_append (h i List.mem_cons_self) _),
      List.drop_left, ih fun j hj => h j (List.mem_cons_of_mem i hj)]
    rfl

/-! ## Streams that end in the middle of a message -/

/-- A stream that was cut off: whole messages in front, and the start of one more. -/
theorem prefix_flatMap {encode : ι → List UInt8} {is : List ι} {tail received : List UInt8}
    (h : received <+: is.flatMap encode ++ tail) :
    ∃ is' tail', is' <+: is ∧ received = is'.flatMap encode ++ tail' ∧
      (tail' <+: tail ∨ ∃ i ∈ is, tail' <+: encode i ∧ tail' ≠ encode i) := by
  induction is generalizing received with
  | nil => exact ⟨[], received, List.prefix_rfl, rfl, Or.inl h⟩
  | cons i is ih =>
    rw [List.flatMap_cons, List.append_assoc] at h
    by_cases hlen : received.length < (encode i).length
    · -- cut off inside the first message
      have hpre : received <+: encode i :=
        List.prefix_of_prefix_length_le h (List.prefix_append _ _) (Nat.le_of_lt hlen)
      refine ⟨[], received, List.nil_prefix, rfl, Or.inr ⟨i, List.mem_cons_self, hpre, ?_⟩⟩
      rintro rfl
      exact absurd hlen (Nat.lt_irrefl _)
    · have hpre : encode i <+: received :=
        List.prefix_of_prefix_length_le (List.prefix_append _ _) h (by omega)
      obtain ⟨rest, rfl⟩ := hpre
      rw [List.prefix_append_right_inj] at h
      obtain ⟨is', tail', his, rfl, htail⟩ := ih h
      refine ⟨i :: is', tail', (List.prefix_cons_inj i).mpr his, ?_, ?_⟩
      · rw [List.flatMap_cons, List.append_assoc]
      · rcases htail with htail | ⟨j, hj, hpre, hne⟩
        · exact Or.inl htail
        · exact Or.inr ⟨j, List.mem_cons_of_mem i hj, hpre, hne⟩

/-- Whole messages with a rest that holds none: a parser that takes each of them or refuses it
takes a front part of them. -/
theorem items_drain_prefix (hs : Stable parse) {encode : ι → List UInt8} {is : List ι}
    {tail : List UInt8}
    (h : ∀ i ∈ is, ∀ rest, parse (encode i ++ rest) = .item i (encode i).length ∨
      ∃ r, parse (encode i ++ rest) = .stop r)
    (htail : (drain parse tail).items = []) :
    (drain parse (is.flatMap encode ++ tail)).items <+: is := by
  induction is with
  | nil =>
    show (drain parse tail).items <+: []
    simp only [htail, List.prefix_rfl]
  | cons i is ih =>
    rw [List.flatMap_cons, List.append_assoc]
    rcases h i List.mem_cons_self (is.flatMap encode ++ tail) with hitem | ⟨r, hstop⟩
    · have hrest := ih fun j hj => h j (List.mem_cons_of_mem i hj)
      rw [drain_item hs hitem, List.drop_left, Drained.prepend, List.singleton_append]
      exact (List.prefix_cons_inj i).mpr hrest
    · rw [drain_stop hstop]
      exact List.nil_prefix

/-! ## Parsers that take exactly the encodings -/

/-- The parser finds a message exactly where the encoding of a valid one stands, and never
refuses anything. -/
structure Exact (parse : List UInt8 → Parsed ι ρ) (encode : ι → List UInt8) (V : ι → Prop) :
    Prop where
  item_iff : ∀ {bs i n}, parse bs = .item i n ↔ V i ∧ encode i <+: bs ∧ n = (encode i).length
  encode_ne_nil : ∀ i, encode i ≠ []
  never_stops : ∀ {bs r}, parse bs ≠ .stop r

section Exact

variable {encode : ι → List UInt8} {V : ι → Prop}

theorem Exact.stable (h : Exact parse encode V) : Stable parse := by
  refine ⟨?_, ?_, ?_⟩
  · intro bs i n hitem
    obtain ⟨-, hpre, rfl⟩ := h.item_iff.mp hitem
    exact ⟨List.length_pos_iff.mpr (h.encode_ne_nil i), hpre.length_le⟩
  · intro bs i n hitem more
    obtain ⟨hi, hpre, hn⟩ := h.item_iff.mp hitem
    exact h.item_iff.mpr ⟨hi, hpre.trans (List.prefix_append bs more), hn⟩
  · exact fun hstop => absurd hstop h.never_stops

/-- What is taken from a stream: valid messages whose encodings are a front part of it, and
every such list of messages is a front part of them. -/
theorem Exact.drain_longest (h : Exact parse encode V) (bs : List UInt8) :
    (drain parse bs).items.flatMap encode <+: bs ∧ (∀ i ∈ (drain parse bs).items, V i) ∧
      ∀ is : List ι, (∀ i ∈ is, V i) → is.flatMap encode <+: bs →
        is <+: (drain parse bs).items := by
  induction hlen : bs.length using Nat.strongRecOn generalizing bs with
  | ind m ih =>
    cases hparse : parse bs with
    | more =>
      rw [drain_more hparse]
      refine ⟨List.nil_prefix, by simp, ?_⟩
      intro is hV hpre
      cases is with
      | nil => exact List.nil_prefix
      | cons i is =>
        -- a message at the start would have been found
        rw [List.flatMap_cons] at hpre
        have hitem := h.item_iff.mpr ⟨hV i List.mem_cons_self,
          (List.prefix_append _ _).trans hpre, rfl⟩
        rw [hparse] at hitem
        exact absurd hitem (by simp)
    | stop r => exact absurd hparse h.never_stops
    | item i n =>
      obtain ⟨hi, ⟨rest, rfl⟩, rfl⟩ := h.item_iff.mp hparse
      have hpos := List.length_pos_iff.mpr (h.encode_ne_nil i)
      rw [List.length_append] at hlen
      obtain ⟨hpre, hV, hlongest⟩ := ih rest.length (by omega) rest rfl
      rw [drain_item h.stable hparse, List.drop_left, Drained.prepend, List.singleton_append]
      refine ⟨?_, ?_, ?_⟩
      · rw [List.flatMap_cons]
        exact (List.prefix_append_right_inj (encode i)).mpr hpre
      · intro j hj
        rcases List.mem_cons.mp hj with rfl | hj
        · exact hi
        · exact hV j hj
      · intro is hVis his
        cases is with
        | nil => exact List.nil_prefix
        | cons j js =>
          rw [List.flatMap_cons] at his
          have hitem := h.item_iff.mpr ⟨hVis j List.mem_cons_self,
            (List.prefix_append _ _).trans his, rfl⟩
          rw [hparse, Parsed.item.injEq] at hitem
          obtain ⟨rfl, -⟩ := hitem
          rw [List.prefix_append_right_inj] at his
          exact (List.prefix_cons_inj i).mpr
            (hlongest js (fun k hk => hVis k (List.mem_cons_of_mem i hk)) his)

/-- The encodings of valid messages, taken apart. -/
theorem Exact.drain_flatMap (h : Exact parse encode V) {is : List ι} (hV : ∀ i ∈ is, V i) :
    drain parse (is.flatMap encode) = ⟨is, [], none⟩ := by
  have hnil : parse [] = .more := by
    cases hparse : parse [] with
    | more => rfl
    | stop r => exact absurd hparse h.never_stops
    | item i n =>
      obtain ⟨-, hpre, -⟩ := h.item_iff.mp hparse
      exact absurd (List.prefix_nil.mp hpre) (h.encode_ne_nil i)
  exact drain_frames h.stable hnil fun i hi => h.item_iff.mpr ⟨hV i hi, List.prefix_rfl, rfl⟩

/-- The part of a stream of messages that has arrived: it starts with the first message, or the
parser waits for more, and more is to come as long as there are messages. -/
theorem Exact.arrived (h : Exact parse encode V) {is : List ι} (hV : ∀ i ∈ is, V i)
    {got rest : List UInt8} (heq : got ++ rest = is.flatMap encode) :
    (∃ i is' got', is = i :: is' ∧ got = encode i ++ got' ∧ got' ++ rest = is'.flatMap encode ∧
        parse got = .item i (encode i).length) ∨
      (parse got = .more ∧ (is ≠ [] → rest ≠ [])) := by
  cases hparse : parse got with
  | stop r => exact absurd hparse h.never_stops
  | more =>
    refine Or.inr ⟨rfl, ?_⟩
    rintro hne rfl
    cases is with
    | nil => exact hne rfl
    | cons i is =>
      rw [List.append_nil, List.flatMap_cons] at heq
      have hitem := h.item_iff.mpr ⟨hV i List.mem_cons_self, heq ▸ List.prefix_append _ _, rfl⟩
      rw [hparse] at hitem
      exact absurd hitem (by simp)
  | item j n =>
    obtain ⟨-, ⟨got', rfl⟩, rfl⟩ := h.item_iff.mp hparse
    cases is with
    | nil =>
      rw [List.flatMap_nil, List.append_assoc] at heq
      exact absurd (List.append_eq_nil_iff.mp heq).1 (h.encode_ne_nil j)
    | cons i is =>
      -- the first message is found however much has arrived
      have hmore := h.stable.item_append hparse rest
      have hitem := h.item_iff.mpr ⟨hV i List.mem_cons_self, List.prefix_append (encode i)
        (is.flatMap encode), rfl⟩
      rw [heq, List.flatMap_cons, hitem, Parsed.item.injEq] at hmore
      obtain ⟨rfl, -⟩ := hmore
      refine Or.inl ⟨i, is, got', rfl, rfl, ?_, rfl⟩
      rw [List.flatMap_cons, List.append_assoc] at heq
      exact List.append_cancel_left heq

end Exact

end Framing
