import Bishlink.Lib.Framing

/-!
# Readers with a state

A `Reader` takes messages from the front of a byte stream, as `Framing.drain` does, but a message
may change what is found next: the parser looks at a state, each message acts on the state and
puts something out, and so does a refusal. After a refusal the same bytes are refused again
whenever more arrive.

`feedAll_eq_read`: however the stream is cut into chunks, the state, the output and the bytes
left over are those of the whole stream, but for refusals that are put out once more.
-/

namespace Framing

variable {σ ι ρ ω : Type*}

/-- A parser that looks at a state, and what its findings do. -/
structure Reader (σ ι ρ ω : Type*) where
  parse : σ → List UInt8 → Parsed ι ρ
  act : σ → ι → σ × List ω
  refuse : σ → ρ → σ × List ω

/-- More bytes do not change what is found, and a refusal neither changes what is found nor does
more the second time. -/
structure Reader.Lawful (R : Reader σ ι ρ ω) : Prop where
  stable : ∀ s, Stable (R.parse s)
  parse_refuse : ∀ s r bs, R.parse (R.refuse s r).1 bs = R.parse s bs
  refuse_refuse : ∀ s r, R.refuse (R.refuse s r).1 r = R.refuse s r

/-- The state after some messages, what they put out, the bytes left over, and why the parser
refused these. -/
structure Read (σ ρ ω : Type*) where
  state : σ
  out : List ω
  rest : List UInt8
  stopped : Option ρ

/-- Put outputs in front. -/
def Read.prepend (o : List ω) (q : Read σ ρ ω) : Read σ ρ ω := { q with out := o ++ q.out }

namespace Reader

/-- Take messages as long as the fuel lasts. -/
def readFuel (R : Reader σ ι ρ ω) : ℕ → σ → List UInt8 → Read σ ρ ω
  | 0, s, bs => ⟨s, [], bs, none⟩
  | fuel + 1, s, bs =>
    match R.parse s bs with
    | .more => ⟨s, [], bs, none⟩
    | .stop r => ⟨(R.refuse s r).1, (R.refuse s r).2, bs, some r⟩
    | .item i n => (readFuel R fuel (R.act s i).1 (bs.drop n)).prepend (R.act s i).2

/-- Take messages until the parser stops: each takes a byte at least. -/
def read (R : Reader σ ι ρ ω) (s : σ) (bs : List UInt8) : Read σ ρ ω :=
  R.readFuel (bs.length + 1) s bs

/-- A chunk arrives behind the bytes left over. -/
def feed (R : Reader σ ι ρ ω) (q : Read σ ρ ω) (chunk : List UInt8) : Read σ ρ ω :=
  (R.read q.state (q.rest ++ chunk)).prepend q.out

variable {R : Reader σ ι ρ ω}

/-- Fuel above the number of bytes is enough. -/
theorem readFuel_of_lt (hR : R.Lawful) {fuel : ℕ} {s : σ} {bs : List UInt8}
    (h : bs.length < fuel) : R.readFuel fuel s bs = R.read s bs := by
  have key : ∀ m fuel fuel' s (bs : List UInt8), bs.length ≤ m → bs.length < fuel →
      bs.length < fuel' → R.readFuel fuel s bs = R.readFuel fuel' s bs := by
    intro m
    induction m with
    | zero =>
      intro fuel fuel' s bs hm hf hf'
      obtain ⟨fuel, rfl⟩ := Nat.exists_eq_succ_of_ne_zero (by omega : fuel ≠ 0)
      obtain ⟨fuel', rfl⟩ := Nat.exists_eq_succ_of_ne_zero (by omega : fuel' ≠ 0)
      simp only [readFuel]
      split
      · rfl
      · rfl
      · rename_i hitem
        have hpos := (hR.stable s).item_pos hitem
        omega
    | succ m ih =>
      intro fuel fuel' s bs hm hf hf'
      obtain ⟨fuel, rfl⟩ := Nat.exists_eq_succ_of_ne_zero (by omega : fuel ≠ 0)
      obtain ⟨fuel', rfl⟩ := Nat.exists_eq_succ_of_ne_zero (by omega : fuel' ≠ 0)
      simp only [readFuel]
      split
      · rfl
      · rfl
      · rename_i i n hitem
        have hpos := (hR.stable s).item_pos hitem
        have hdrop : (bs.drop n).length = bs.length - n := List.length_drop
        rw [ih fuel fuel' _ (bs.drop n) (by omega) (by omega) (by omega)]
  exact key bs.length fuel (bs.length + 1) s bs (Nat.le_refl _) h (Nat.lt_succ_self _)

theorem read_more {s : σ} {bs : List UInt8} (h : R.parse s bs = .more) :
    R.read s bs = ⟨s, [], bs, none⟩ := by
  simp [read, readFuel, h]

theorem read_stop {s : σ} {bs : List UInt8} {r : ρ} (h : R.parse s bs = .stop r) :
    R.read s bs = ⟨(R.refuse s r).1, (R.refuse s r).2, bs, some r⟩ := by
  simp [read, readFuel, h]

theorem read_item (hR : R.Lawful) {s : σ} {bs : List UInt8} {i : ι} {n : ℕ}
    (h : R.parse s bs = .item i n) :
    R.read s bs = (R.read (R.act s i).1 (bs.drop n)).prepend (R.act s i).2 := by
  have hpos := (hR.stable s).item_pos h
  have hdrop : (bs.drop n).length = bs.length - n := List.length_drop
  rw [read, readFuel]
  simp only [h]
  rw [readFuel_of_lt hR (by omega)]

theorem prepend_prepend (o o' : List ω) (q : Read σ ρ ω) :
    (q.prepend o').prepend o = q.prepend (o ++ o') := by
  simp [Read.prepend]

/-- Bytes that arrive after the parser has stopped: it goes on with what was left over, or it
refuses that again. -/
theorem read_append (hR : R.Lawful) (s : σ) (bs chunk : List UInt8) :
    ((R.read s bs).stopped = none ∧ R.read s (bs ++ chunk) = R.feed (R.read s bs) chunk) ∨
      ∃ r, (R.read s bs).stopped = some r ∧
        R.read s (bs ++ chunk) = { R.read s bs with rest := (R.read s bs).rest ++ chunk } ∧
        R.read (R.read s bs).state ((R.read s bs).rest ++ chunk) =
          ⟨(R.read s bs).state, (R.refuse (R.read s bs).state r).2, (R.read s bs).rest ++ chunk,
            some r⟩ := by
  induction hlen : bs.length using Nat.strongRecOn generalizing s bs with
  | ind m ih =>
    cases hparse : R.parse s bs with
    | more =>
      left
      rw [read_more hparse]
      exact ⟨rfl, rfl⟩
    | stop r =>
      right
      refine ⟨r, ?_, ?_, ?_⟩
      · rw [read_stop hparse]
      · rw [read_stop hparse, read_stop ((hR.stable s).stop_append hparse chunk)]
      · have hagain : R.parse (R.refuse s r).1 (bs ++ chunk) = .stop r := by
          rw [hR.parse_refuse]
          exact (hR.stable s).stop_append hparse chunk
        rw [read_stop hparse]
        dsimp only
        rw [read_stop hagain, hR.refuse_refuse]
    | item i n =>
      obtain ⟨hpos, hle⟩ := (hR.stable s).item_pos hparse
      have hdrop : (bs.drop n).length = bs.length - n := List.length_drop
      have hmore := read_item hR ((hR.stable s).item_append hparse chunk)
      rw [List.drop_append_of_le_length hle] at hmore
      rw [hmore, read_item hR hparse]
      rcases ih (bs.drop n).length (by omega) (R.act s i).1 (bs.drop n) rfl with
        ⟨hgoes, heq⟩ | ⟨r, hstop, heq, hagain⟩
      · refine Or.inl ⟨hgoes, ?_⟩
        rw [heq, feed, feed, prepend_prepend]
        rfl
      · refine Or.inr ⟨r, hstop, ?_, hagain⟩
        rw [heq]
        rfl

/-- What was put out last is the refusal. -/
theorem out_of_stopped (hR : R.Lawful) {s : σ} {bs : List UInt8} {r : ρ}
    (h : (R.read s bs).stopped = some r) :
    ∃ o, (R.read s bs).out = o ++ (R.refuse (R.read s bs).state r).2 := by
  induction hlen : bs.length using Nat.strongRecOn generalizing s bs with
  | ind m ih =>
    cases hparse : R.parse s bs with
    | more =>
      rw [read_more hparse] at h
      exact absurd h (by simp)
    | stop r' =>
      rw [read_stop hparse] at h ⊢
      obtain rfl := Option.some.inj h
      exact ⟨[], by rw [hR.refuse_refuse, List.nil_append]⟩
    | item i n =>
      obtain ⟨hpos, hle⟩ := (hR.stable s).item_pos hparse
      have hdrop : (bs.drop n).length = bs.length - n := List.length_drop
      rw [read_item hR hparse] at h ⊢
      obtain ⟨o, ho⟩ := ih (bs.drop n).length (by omega) h rfl
      refine ⟨(R.act s i).2 ++ o, ?_⟩
      show (R.act s i).2 ++ (R.read (R.act s i).1 (bs.drop n)).out = _
      rw [ho, List.append_assoc]
      rfl

/-- What a refusal puts out when it is made `k` times more. -/
def again (R : Reader σ ι ρ ω) (q : Read σ ρ ω) (k : ℕ) : List ω :=
  match q.stopped with
  | none => []
  | some r => (List.replicate k (R.refuse q.state r).2).flatten

/-- The same, with the refusal made `k` times more. -/
def repeats (R : Reader σ ι ρ ω) (q : Read σ ρ ω) (k : ℕ) : Read σ ρ ω :=
  { q with out := q.out ++ R.again q k }

theorem repeats_zero (q : Read σ ρ ω) : R.repeats q 0 = q := by
  have hnil : R.again q 0 = [] := by
    rw [again]
    split <;> rfl
  rw [repeats, hnil, List.append_nil]

/-- One more chunk. -/
theorem feed_repeats (hR : R.Lawful) (s : σ) (bs chunk : List UInt8) (k : ℕ) :
    ∃ k', R.feed (R.repeats (R.read s bs) k) chunk = R.repeats (R.read s (bs ++ chunk)) k' := by
  rcases read_append hR s bs chunk with ⟨hgoes, heq⟩ | ⟨r, hstop, heq, hagain⟩
  · have hnil : R.again (R.read s bs) k = [] := by rw [again, hgoes]
    have hsame : R.repeats (R.read s bs) k = R.read s bs := by
      rw [repeats, hnil, List.append_nil]
    exact ⟨0, by rw [hsame, repeats_zero, heq]⟩
  · refine ⟨k + 1, ?_⟩
    show (R.read (R.read s bs).state ((R.read s bs).rest ++ chunk)).prepend _ = _
    rw [hagain, heq]
    simp only [Read.prepend, repeats, again, hstop, List.replicate_succ', List.flatten_append,
      List.flatten_singleton, List.append_assoc]

/-- The chunks arrive one after the other, behind bytes that are there. -/
theorem feedAll_eq_read (hR : R.Lawful) (s : σ) (bs : List UInt8) {chunks : List (List UInt8)}
    (hne : chunks ≠ []) :
    ∃ k, chunks.foldl R.feed ⟨s, [], bs, none⟩ = R.repeats (R.read s (bs ++ chunks.flatten)) k := by
  induction chunks using List.reverseRecOn with
  | nil => exact absurd rfl hne
  | append_singleton chunks chunk ih =>
    rw [List.foldl_append, List.foldl_cons, List.foldl_nil, List.flatten_append,
      List.flatten_singleton]
    by_cases hfirst : chunks = []
    · refine ⟨0, ?_⟩
      subst hfirst
      rw [repeats_zero]
      rfl
    · obtain ⟨k, hk⟩ := ih hfirst
      rw [hk, ← List.append_assoc]
      exact feed_repeats hR s (bs ++ chunks.flatten) chunk k

/-- A front part of encoded messages: whole messages are taken from it, as long as the reader
understands the next one, and it waits for the rest of a message that was cut. `J s o ms` is what
holds in state `s`, with `o` put out and the messages `ms` still to come; nothing is left of
messages that are there as a whole. -/
theorem read_encoded (hR : R.Lawful) {enc : ι → List UInt8} {J : σ → List ω → List ι → Prop}
    (hend : ∀ s, R.parse s [] = .more)
    (hparse : ∀ s o m ms, J s o (m :: ms) → R.parse s (enc m) = .item m (enc m).length)
    (hact : ∀ s o m ms, J s o (m :: ms) → J (R.act s m).1 (o ++ (R.act s m).2) ms)
    {s : σ} {o : List ω} {ms : List ι} {bs rest : List UInt8} (hJ : J s o ms)
    (hbs : bs ++ rest = ms.flatMap enc) :
    ∃ left, J (R.read s bs).state (o ++ (R.read s bs).out) left ∧
      (R.read s bs).rest ++ rest = left.flatMap enc ∧ (rest = [] → left = []) := by
  induction ms generalizing s o bs with
  | nil =>
    rw [List.flatMap_nil, List.append_eq_nil_iff] at hbs
    obtain ⟨rfl, rfl⟩ := hbs
    refine ⟨[], ?_, ?_, fun _ => rfl⟩
    · rw [read_more (hend s), List.append_nil]
      exact hJ
    · rw [read_more (hend s)]
      rfl
  | cons m ms ih =>
    rw [List.flatMap_cons] at hbs
    have hwhole := hparse s o m ms hJ
    -- the bytes end within this message or behind it
    rcases List.append_eq_append_iff.mp hbs with ⟨tail, henc, hrest⟩ | ⟨bs', rfl, hrest⟩
    · by_cases htail : tail = []
      · -- the message ends where the bytes end
        rw [htail, List.append_nil] at henc
        rw [htail, List.nil_append] at hrest
        have hnext := ih (hact s o m ms hJ) (show [] ++ rest = ms.flatMap enc from hrest)
        rw [← henc, read_item hR hwhole, List.drop_length]
        obtain ⟨left, hleft, hbytes⟩ := hnext
        refine ⟨left, ?_, hbytes⟩
        show J _ (o ++ ((R.act s m).2 ++ _)) left
        rw [← List.append_assoc]
        exact hleft
      · have hmore : R.parse s bs = .more := by
          cases hfound : R.parse s bs with
          | more => rfl
          | stop r =>
            -- what is found in a front part is found in the whole message too
            have hstop := (hR.stable s).stop_append hfound tail
            rw [← henc, hwhole] at hstop
            exact absurd hstop (by simp)
          | item i n =>
            have hle := ((hR.stable s).item_pos hfound).2
            have hitem := (hR.stable s).item_append hfound tail
            rw [← henc, hwhole, Parsed.item.injEq] at hitem
            have hlen := congrArg List.length henc
            have hpos := List.length_pos_iff.mpr htail
            rw [List.length_append] at hlen
            omega
        refine ⟨m :: ms, ?_, ?_, fun hnil => ?_⟩
        · rw [read_more hmore, List.append_nil]
          exact hJ
        · rw [read_more hmore, List.flatMap_cons]
          exact hbs
        · rw [hnil, eq_comm, List.append_eq_nil_iff] at hrest
          exact absurd hrest.1 htail
    · have hitem := (hR.stable s).item_append hwhole bs'
      obtain ⟨left, hleft, hbytes⟩ := ih (hact s o m ms hJ) hrest.symm
      rw [read_item hR hitem, List.drop_left]
      refine ⟨left, ?_, hbytes⟩
      show J _ (o ++ ((R.act s m).2 ++ _)) left
      rw [← List.append_assoc]
      exact hleft

end Reader

end Framing
