import Bishlink.Lib.RunningTotal
import Bishlink.Lengths

/-!
# Symbols and links

`transport_publish` fills `paths_array[i].x` in one of three ways, and its send loop finds the link
of a symbol by the running total of these counts, with link 0 where it finds none. The symbols
follow the allocation as long as the counts make up all symbols; the parity symbol that is added
when the allocation has none is in no link's count and goes to link 0
(`followsAllocation_iff`).
-/

namespace Bishlink

open RunningTotal

variable {lib : FecLib} {io : PublishIO} {t : Transport} {obj : MoqObject}

/-! ## What the allocation promises -/

/-- The link the send loop picks for a symbol. -/
def symbolLink (t : Transport) (o : ShardedObject) (s : ℕ) : ℕ :=
  pathOfSymbol (o.xs.take t.links.length) 0 0 s

/-- The number of data symbols of an object. -/
def objectSymbols (t : Transport) (obj : MoqObject) : ℕ :=
  dataSymbolCount obj.data.length t.symbolSize

/-- The object is allocated by `pathflow_optimize`. -/
def Optimized (t : Transport) (obj : MoqObject) : Prop :=
  (getTrackProfile obj.trackId).fecEnabled = true ∧ 1 < objectSymbols t obj

/-- What `pathflow_optimize` returns: each link has room for the data symbols it gets, and the
links together get all of them. -/
structure PathflowAllocation (io : PublishIO) (t : Transport) (obj : MoqObject) : Prop where
  room : ∀ i < t.links.length, (io.pathflow i).2 ≤ (io.pathflow i).1
  all : (((List.range t.links.length).map io.pathflow).map Prod.snd).sum = objectSymbols t obj

/-- The parity symbol of the minimum-of-one rule: no link has a symbol more than it needs. -/
def ParityForced (io : PublishIO) (t : Transport) (obj : MoqObject) : Prop :=
  Optimized t obj ∧ ∀ i < t.links.length, (io.pathflow i).1 ≤ (io.pathflow i).2

/-- The symbol that the minimum-of-one rule adds. -/
def AddedParity (io : PublishIO) (t : Transport) (obj : MoqObject) (s : ℕ) : Prop :=
  ParityForced io t obj ∧ s = objectSymbols t obj

open Classical in
/-- The send loop keeps to the allocation of an object. -/
structure FollowsAllocation (io : PublishIO) (t : Transport) (obj : MoqObject)
    (o : ShardedObject) : Prop where
  /-- a connection gets each symbol once, on the path of the symbol's link -/
  sent : ∀ c, GetsDatagrams t obj c → ∃ trackAlias, sendDatagrams t io obj o c =
    (List.range o.totalSymbols).map fun s =>
      .datagram c.ptr (findPathIndexByLink t (io.pathStats c.ptr) (symbolLink t o s))
        (symbolDatagram t io obj o c trackAlias s)
  /-- each symbol is on exactly one link -/
  one : ∀ s < o.totalSymbols, ∃! i, i < t.links.length ∧ symbolLink t o s = i
  /-- without the added parity symbol, a link gets as many symbols as the allocation says -/
  exact : ∀ i < t.links.length,
    ((Finset.range o.totalSymbols).filter fun s =>
      symbolLink t o s = i ∧ ¬AddedParity io t obj s).card = o.xs.getD i 0
  /-- a link that is to get no symbol gets none -/
  idle : ∀ i < t.links.length, o.xs.getD i 0 = 0 → ∀ s < o.totalSymbols, symbolLink t o s ≠ i

/-! ## The search -/

theorem pathOfSymbol_eq (xs : List ℕ) (i accumulated s : ℕ) (h : accumulated ≤ s) :
    pathOfSymbol xs i accumulated s =
      ((blockOf xs (s - accumulated)).map (i + ·)).getD 0 := by
  induction xs generalizing i accumulated with
  | nil => rfl
  | cons x xs ih =>
    unfold pathOfSymbol blockOf
    by_cases hx : s < accumulated + x
    · rw [if_pos hx, if_pos (by omega)]
      rfl
    · rw [if_neg hx, if_neg (by omega), ih (i + 1) (accumulated + x) (by omega), Option.map_map]
      have hrest : s - accumulated - x = s - (accumulated + x) := by omega
      have hnext : ((i + ·) ∘ (· + 1)) = (i + 1 + · : ℕ → ℕ) := by
        funext k
        show i + (k + 1) = i + 1 + k
        omega
      rw [hrest, hnext]

theorem symbolLink_eq (t : Transport) (o : ShardedObject) (s : ℕ) :
    symbolLink t o s = (blockOf (o.xs.take t.links.length) s).getD 0 := by
  have hid : ((0 + ·) : ℕ → ℕ) = id := funext Nat.zero_add
  unfold symbolLink
  rw [pathOfSymbol_eq _ 0 0 s (Nat.zero_le s), Nat.sub_zero, hid, Option.map_id_fun, id]

theorem getD_take {xs : List ℕ} {i n : ℕ} (h : i < n) : (xs.take n).getD i 0 = xs.getD i 0 := by
  rw [List.getD_eq_getElem?_getD, List.getD_eq_getElem?_getD, List.getElem?_take_of_lt h]

/-! ## The counts -/

theorem shardObject_counts (lib : FecLib) (io : PublishIO) (t : Transport) (obj : MoqObject) :
    (shardObject lib io t obj).1.dataSymbols = objectSymbols t obj ∧
      ((shardObject lib io t obj).1.xs, (shardObject lib io t obj).1.paritySymbols) =
        allocateSymbols t io (getTrackProfile obj.trackId).fecEnabled (objectSymbols t obj) := by
  unfold shardObject objectSymbols
  dsimp only
  split
  · exact ⟨rfl, rfl⟩
  · exact ⟨rfl, rfl⟩

/-- The counts of `pathflow_optimize`, and their parity. -/
theorem shardObject_of_optimized (lib : FecLib) (io : PublishIO) (h : Optimized t obj) :
    (shardObject lib io t obj).1.xs =
        ((List.range t.links.length).map io.pathflow).map Prod.fst ∧
      (shardObject lib io t obj).1.paritySymbols =
        (let parity := (((List.range t.links.length).map io.pathflow).map fun p =>
          if p.2 < p.1 then p.1 - p.2 else 0).sum
        if parity = 0 then 1 else parity) := by
  obtain ⟨-, hcounts⟩ := shardObject_counts lib io t obj
  unfold allocateSymbols at hcounts
  dsimp only at hcounts
  rw [if_neg (not_not_intro h.1), if_pos h.2] at hcounts
  exact Prod.mk.inj hcounts

theorem getD_xs_of_optimized (lib : FecLib) (io : PublishIO) (h : Optimized t obj) {i : ℕ}
    (hi : i < t.links.length) :
    (shardObject lib io t obj).1.xs.getD i 0 = (io.pathflow i).1 := by
  rw [(shardObject_of_optimized lib io h).1, List.getD_eq_getElem?_getD]
  simp [hi]

/-- One more symbol for one of the first links. -/
theorem sum_take_modify {xs : List ℕ} {i n : ℕ} (hi : i < n) (hlen : n ≤ xs.length) :
    ((xs.modify i (· + 1)).take n).sum = (xs.take n).sum + 1 := by
  induction xs generalizing i n with
  | nil => exact absurd (hi.trans_le hlen) (Nat.not_lt_zero i)
  | cons x xs ih =>
    rw [List.length_cons] at hlen
    obtain ⟨n, rfl⟩ : ∃ m, n = m + 1 := ⟨n - 1, by omega⟩
    cases i with
    | zero =>
      rw [List.modify_zero_cons, List.take_succ_cons, List.take_succ_cons, List.sum_cons,
        List.sum_cons]
      omega
    | succ i =>
      rw [List.modify_succ_cons, List.take_succ_cons, List.take_succ_cons, List.sum_cons,
        List.sum_cons, ih (by omega) (by omega)]
      omega

/-- Symbols dealt out one by one to the first links. -/
theorem sum_take_foldl_modify (f : ℕ → ℕ) {n : ℕ} (hf : ∀ s, f s < n) (symbols : List ℕ) :
    ∀ xs : List ℕ, n ≤ xs.length →
      ((symbols.foldl (fun xs s => xs.modify (f s) (· + 1)) xs).take n).sum =
        (xs.take n).sum + symbols.length := by
  induction symbols with
  | nil => exact fun xs _ => rfl
  | cons s symbols ih =>
    intro xs hlen
    rw [List.foldl_cons, ih _ (by rw [List.length_modify]; exact hlen),
      sum_take_modify (hf s) hlen, List.length_cons]
    omega

theorem roundRobin_lt {n : ℕ} (hn : 1 ≤ n) (s : ℕ) : (if 0 < n then s % n else 0) < n := by
  rw [if_pos (show 0 < n from hn)]
  exact Nat.mod_lt s hn

/-- No symbol is dealt out yet. -/
theorem sum_take_zeros (k n : ℕ) : ((List.replicate k 0).take n).sum = 0 := by
  rw [List.take_replicate, List.sum_replicate_nat, Nat.mul_zero]

/-- What the links have room for is what they need and what is left over for parity. -/
theorem sum_fst_eq (paths : List (ℕ × ℕ)) (h : ∀ p ∈ paths, p.2 ≤ p.1) :
    (paths.map Prod.fst).sum =
      (paths.map Prod.snd).sum + (paths.map fun p => if p.2 < p.1 then p.1 - p.2 else 0).sum := by
  induction paths with
  | nil => rfl
  | cons p paths ih =>
    have hrest := ih fun q hq => h q (List.mem_cons_of_mem p hq)
    have hp := h p List.mem_cons_self
    simp only [List.map_cons, List.sum_cons]
    split <;> omega

theorem parity_eq_zero_iff (paths : List (ℕ × ℕ)) :
    (paths.map fun p => if p.2 < p.1 then p.1 - p.2 else 0).sum = 0 ↔
      ∀ p ∈ paths, p.1 ≤ p.2 := by
  rw [List.sum_eq_zero_iff_forall_eq_nat, List.forall_mem_map]
  refine forall₂_congr fun p _ => ?_
  split <;> omega

theorem PathflowAllocation.forall_room (h : PathflowAllocation io t obj) :
    ∀ p ∈ (List.range t.links.length).map io.pathflow, p.2 ≤ p.1 :=
  List.forall_mem_map.mpr fun i hi => h.room i (List.mem_range.mp hi)

theorem parityForced_iff (h : Optimized t obj) :
    ParityForced io t obj ↔
      ∀ p ∈ (List.range t.links.length).map io.pathflow, p.1 ≤ p.2 := by
  unfold ParityForced
  rw [and_iff_right h, List.forall_mem_map]
  simp only [List.mem_range]

open Classical in
/-- The links are given all symbols but the one that the minimum-of-one rule adds. -/
theorem totalSymbols_eq (lib : FecLib) (hlinks : 1 ≤ t.links.length)
    (hmax : t.links.length ≤ TRANSPORT_MAX_PATHS)
    (halloc : Optimized t obj → PathflowAllocation io t obj) :
    (shardObject lib io t obj).1.totalSymbols =
      ((shardObject lib io t obj).1.xs.take t.links.length).sum +
        if ParityForced io t obj then 1 else 0 := by
  obtain ⟨hdata, hcounts⟩ := shardObject_counts lib io t obj
  unfold ShardedObject.totalSymbols
  rw [hdata]
  -- with FEC and several symbols the optimizer decides; else the links take turns
  by_cases hopt : Optimized t obj
  · obtain ⟨hxs, hparity⟩ := shardObject_of_optimized lib io hopt
    have hsum := sum_fst_eq _ (halloc hopt).forall_room
    rw [(halloc hopt).all] at hsum
    have hzero := parity_eq_zero_iff ((List.range t.links.length).map io.pathflow)
    rw [← parityForced_iff hopt] at hzero
    rw [hxs, hparity, List.take_of_length_le (by simp), hsum]
    dsimp only
    by_cases hf : ParityForced io t obj
    · rw [if_pos (hzero.mpr hf), if_pos hf, hzero.mpr hf]
    · rw [if_neg (fun h => hf (hzero.mp h)), if_neg hf]
      rfl
  · rw [if_neg (fun h : ParityForced io t obj => hopt h.1)]
    unfold allocateSymbols at hcounts
    dsimp only at hcounts
    by_cases hfec : (getTrackProfile obj.trackId).fecEnabled = true
    · have hmany : ¬1 < objectSymbols t obj := fun h => hopt ⟨hfec, h⟩
      rw [if_neg (not_not_intro hfec), if_neg hmany] at hcounts
      obtain ⟨hxs, hparity⟩ := Prod.mk.inj hcounts
      have hpos := dataSymbolCount_pos obj.data.length t.symbolSize
      -- one symbol on one link, written as the step of the other loop
      have hset : (List.replicate TRANSPORT_MAX_PATHS 0).set
          (if 0 < t.links.length then io.rrPath % t.links.length else 0) 1 =
            (List.replicate TRANSPORT_MAX_PATHS 0).modify
              (if 0 < t.links.length then io.rrPath % t.links.length else 0) (· + 1) := by
        rw [List.modify_eq_set]
        congr 1
        simp
      rw [hxs, hparity, hset,
        sum_take_modify (roundRobin_lt hlinks _) (by rw [List.length_replicate]; exact hmax)]
      rw [sum_take_zeros]
      unfold objectSymbols at hmany ⊢
      omega
    · rw [if_pos hfec] at hcounts
      obtain ⟨hxs, hparity⟩ := Prod.mk.inj hcounts
      rw [hxs, hparity, sum_take_foldl_modify _ (roundRobin_lt hlinks) _ _
        (by rw [List.length_replicate]; exact hmax)]
      rw [sum_take_zeros, List.length_range, Nat.zero_add]

/-- When a parity symbol is added, the allocation is used up by the data symbols. -/
theorem sum_take_of_parityForced (lib : FecLib) (h : ParityForced io t obj)
    (halloc : PathflowAllocation io t obj) :
    ((shardObject lib io t obj).1.xs.take t.links.length).sum = objectSymbols t obj := by
  have hnone := (parity_eq_zero_iff _).mpr ((parityForced_iff h.1).mp h)
  rw [(shardObject_of_optimized lib io h.1).1, List.take_of_length_le (by simp),
    sum_fst_eq _ halloc.forall_room, hnone, halloc.all, Nat.add_zero]

/-! ## The send loop -/

section SendLoop

variable {o : ShardedObject} {s : ℕ}

/-- A symbol that the links are given is on the link of its block. -/
theorem symbolLink_eq_iff (h : s < (o.xs.take t.links.length).sum) (i : ℕ) :
    symbolLink t o s = i ↔ blockOf (o.xs.take t.links.length) s = some i := by
  rw [symbolLink_eq]
  cases hb : blockOf (o.xs.take t.links.length) s with
  | none => exact absurd ((blockOf_eq_none _ _).mp hb) (Nat.not_le.mpr h)
  | some k => rw [Option.getD_some, Option.some.injEq]

/-- A symbol beyond the allocation is on the first link. -/
theorem symbolLink_eq_zero (h : (o.xs.take t.links.length).sum ≤ s) : symbolLink t o s = 0 := by
  rw [symbolLink_eq, (blockOf_eq_none _ _).mpr h, Option.getD_none]

theorem symbolLink_lt (o : ShardedObject) (hlinks : 1 ≤ t.links.length) (s : ℕ) :
    symbolLink t o s < t.links.length := by
  rcases Nat.lt_or_ge s (o.xs.take t.links.length).sum with hs | hs
  · have hlt := lt_length_of_blockOf ((symbolLink_eq_iff hs _).mp rfl)
    exact hlt.trans_le (List.length_take_le _ _)
  · rw [symbolLink_eq_zero hs]
    exact hlinks

open Classical in
/-- The symbols within the allocation are all but the added one. -/
theorem lt_sum_iff (hlinks : 1 ≤ t.links.length) (hmax : t.links.length ≤ TRANSPORT_MAX_PATHS)
    (halloc : Optimized t obj → PathflowAllocation io t obj) (lib : FecLib) (s : ℕ) :
    s < (shardObject lib io t obj).1.totalSymbols ∧ ¬AddedParity io t obj s ↔
      s < ((shardObject lib io t obj).1.xs.take t.links.length).sum := by
  have htotal := totalSymbols_eq lib hlinks hmax halloc
  unfold AddedParity
  by_cases hforced : ParityForced io t obj
  · have hsum := sum_take_of_parityForced lib hforced (halloc hforced.1)
    rw [if_pos hforced] at htotal
    rw [and_iff_right hforced]
    omega
  · rw [if_neg hforced] at htotal
    rw [htotal, Nat.add_zero]
    exact and_iff_left fun h => hforced h.1

open Classical in
/-- Apart from the added parity symbol, each link gets the symbols it was allocated. -/
theorem card_symbolLink (hlinks : 1 ≤ t.links.length)
    (hmax : t.links.length ≤ TRANSPORT_MAX_PATHS)
    (halloc : Optimized t obj → PathflowAllocation io t obj) (lib : FecLib) {i : ℕ}
    (hi : i < t.links.length) :
    ((Finset.range (shardObject lib io t obj).1.totalSymbols).filter fun s =>
      symbolLink t (shardObject lib io t obj).1 s = i ∧ ¬AddedParity io t obj s).card =
        (shardObject lib io t obj).1.xs.getD i 0 := by
  have hlt := lt_sum_iff hlinks hmax halloc lib
  generalize (shardObject lib io t obj).1 = o at hlt ⊢
  rw [← getD_take hi, ← card_blockOf]
  congr 1
  ext s
  rw [Finset.mem_filter, Finset.mem_filter, Finset.mem_range, Finset.mem_range, ← hlt s]
  constructor
  · rintro ⟨hs, hlink, hadded⟩
    exact ⟨⟨hs, hadded⟩, (symbolLink_eq_iff ((hlt s).mp ⟨hs, hadded⟩) i).mp hlink⟩
  · rintro ⟨hs, hblock⟩
    exact ⟨hs.1, (symbolLink_eq_iff ((hlt s).mp hs) i).mpr hblock, hs.2⟩

end SendLoop

/-! ## When the symbols follow the allocation -/

/-- A parity symbol is added, and the first link, which is to stay idle, gets it. -/
theorem not_followsAllocation_of_idle (lib : FecLib) (hlinks : 1 ≤ t.links.length)
    (hmax : t.links.length ≤ TRANSPORT_MAX_PATHS)
    (halloc : Optimized t obj → PathflowAllocation io t obj) (hforced : ParityForced io t obj)
    (hzero : (io.pathflow 0).1 = 0) :
    ¬FollowsAllocation io t obj (shardObject lib io t obj).1 := by
  intro h
  have htotal := totalSymbols_eq lib hlinks hmax halloc
  rw [if_pos hforced] at htotal
  have hidle : (shardObject lib io t obj).1.xs.getD 0 0 = 0 := by
    rw [getD_xs_of_optimized lib io hforced.1 hlinks, hzero]
  exact h.idle 0 hlinks hidle _ (by rw [htotal]; exact Nat.lt_succ_self _)
    (symbolLink_eq_zero le_rfl)

/-- The symbols follow the allocation unless a parity symbol is added and the first link, which
gets it, is to stay idle. -/
theorem followsAllocation_iff (lib : FecLib) (io : PublishIO) (t : Transport) (obj : MoqObject)
    (hlinks : 1 ≤ t.links.length) (hmax : t.links.length ≤ TRANSPORT_MAX_PATHS)
    (halloc : Optimized t obj → PathflowAllocation io t obj) :
    FollowsAllocation io t obj (shardObject lib io t obj).1 ↔
      ¬(ParityForced io t obj ∧ (io.pathflow 0).1 = 0) := by
  constructor
  · rintro h ⟨hforced, hzero⟩
    exact not_followsAllocation_of_idle lib hlinks hmax halloc hforced hzero h
  · intro hcond
    refine ⟨?_, ?_, fun i hi => card_symbolLink hlinks hmax halloc lib hi, ?_⟩
    · intro c hc
      rcases sendDatagrams_eq t io obj (shardObject lib io t obj).1 c with
        ⟨trackAlias, -, heq⟩ | ⟨hnot, -⟩
      · exact ⟨trackAlias, heq⟩
      · exact absurd hc hnot
    · intro s _
      exact ⟨_, ⟨symbolLink_lt _ hlinks s, rfl⟩, fun i hi => hi.2.symm⟩
    · intro i hi hzero s hs hlink
      by_cases hadded : AddedParity io t obj s
      · -- the added symbol is on the first link, which then has symbols of its own
        obtain ⟨hforced, rfl⟩ := hadded
        have hsum := sum_take_of_parityForced lib hforced (halloc hforced.1)
        rw [symbolLink_eq_zero hsum.le] at hlink
        subst hlink
        rw [getD_xs_of_optimized lib io hforced.1 hi] at hzero
        exact hcond ⟨hforced, hzero⟩
      · have hsum := (lt_sum_iff hlinks hmax halloc lib s).mp ⟨hs, hadded⟩
        have hblock := (blockOf_eq_some _ _ _).mp ((symbolLink_eq_iff hsum i).mp hlink)
        rw [getD_take hi, hzero] at hblock
        omega

/-! ## Two links -/

/-- A video track with FEC. -/
def fecVideo : MoqTrackId :=
  ⟨MOQ_TRACK_VIDEO, MOQ_TRACK_FLAG_FEC_ENABLED, TrackName.ofBuffer [97]⟩

/-- A server with two links and a subscriber of the track. -/
def twoLinkServer : Transport :=
  { Transport.init true [.inet 1 0, .inet 2 0] 1280 with
    conns := [{ Conn.zero 1 with
      subscriptions := addSubscription Subscriptions.empty fecVideo.type fecVideo.flags
        fecVideo.name 8 }] }

/-- A frame of two symbols. -/
def videoFrame : MoqObject := ⟨fecVideo, 0, 0, List.replicate 2000 0, true, 1⟩

/-- Two data symbols, shared out to the links. -/
def twoWaySplit (first second : ℕ) : PublishIO :=
  { publishAt 0 with pathflow := fun i => if i = 0 then (first, first) else (second, second) }

theorem objectSymbols_videoFrame : objectSymbols twoLinkServer videoFrame = 2 := by
  unfold objectSymbols videoFrame
  rw [List.length_replicate]
  rfl

theorem pathflowAllocation_twoWay {first second : ℕ} (h : first + second = 2) :
    PathflowAllocation (twoWaySplit first second) twoLinkServer videoFrame where
  room := by
    intro i _
    unfold twoWaySplit
    dsimp only
    split <;> exact le_rfl
  all := by
    rw [objectSymbols_videoFrame, ← h]
    rfl

theorem parityForced_twoWay (first second : ℕ) :
    ParityForced (twoWaySplit first second) twoLinkServer videoFrame := by
  refine ⟨⟨rfl, ?_⟩, fun i _ => ?_⟩
  · rw [objectSymbols_videoFrame]
    exact Nat.one_lt_two
  · unfold twoWaySplit
    dsimp only
    split <;> exact le_rfl

/-- Each link is to get one symbol, and the parity symbol comes on top. -/
theorem followsAllocation_even : FollowsAllocation (twoWaySplit 1 1) twoLinkServer videoFrame
    (shardObject FecLib.unavailable (twoWaySplit 1 1) twoLinkServer videoFrame).1 :=
  (followsAllocation_iff FecLib.unavailable (twoWaySplit 1 1) twoLinkServer videoFrame (by decide)
    (by decide) fun _ => pathflowAllocation_twoWay rfl).mpr fun h => absurd h.2 (by decide)

/-- All symbols are to go to the second link, and the parity symbol goes to the first. -/
theorem not_followsAllocation_second :
    1 ≤ twoLinkServer.links.length ∧ twoLinkServer.links.length ≤ TRANSPORT_MAX_PATHS ∧
      PathflowAllocation (twoWaySplit 0 2) twoLinkServer videoFrame ∧
      (∀ c ∈ twoLinkServer.conns, GetsDatagrams twoLinkServer videoFrame c) ∧
      ¬FollowsAllocation (twoWaySplit 0 2) twoLinkServer videoFrame
        (shardObject FecLib.unavailable (twoWaySplit 0 2) twoLinkServer videoFrame).1 := by
  refine ⟨by decide, by decide, pathflowAllocation_twoWay rfl, ?_, ?_⟩
  · intro c hc
    obtain rfl := List.mem_singleton.mp hc
    unfold GetsDatagrams
    decide
  · exact not_followsAllocation_of_idle _ (by decide) (by decide)
      (fun _ => pathflowAllocation_twoWay rfl) (parityForced_twoWay 0 2) rfl

end Bishlink
