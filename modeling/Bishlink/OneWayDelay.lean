import Bishlink.Datagram
import Bishlink.Lib.MarkedMin

/-!
# The delay of a path

The telemetry branch of `on_receive_datagram_frame` over the samples of a path. `min_owd_ns` is a
running minimum whose mark is 0, and the delay above it is cut to 32 bits of microseconds:
`one_way_delay_exact_iff` says for which samples both are exact.
-/

namespace Bishlink

open MarkedMin

/-! ## Samples -/

namespace TelemetryDatagram

/-- `current_owd`. -/
def currentOwd (d : TelemetryDatagram) : Int64 := d.recvTimeNs.toInt64 - d.sendTimeNs.toInt64

/-- The difference of the two times. -/
def owd (d : TelemetryDatagram) : ℤ := d.recvTimeNs.toNat - d.sendTimeNs.toNat

/-- Both times are below 2^63. -/
def Signed (d : TelemetryDatagram) : Prop :=
  d.sendTimeNs.toNat < 2 ^ 63 ∧ d.recvTimeNs.toNat < 2 ^ 63

instance (d : TelemetryDatagram) : Decidable d.Signed :=
  inferInstanceAs (Decidable (_ ∧ _))

end TelemetryDatagram

/-- The entries of a path before the first sample. -/
def PathOwd.zero : PathOwd := ⟨0, 0, 0, 0⟩

/-- `relative_owd_ns` of a sample, from the entry after it. -/
def PathOwd.relativeNs (after : PathOwd) (d : TelemetryDatagram) : Int64 :=
  d.currentOwd - after.minOwdNs

/-- The entries of all paths after telemetry. -/
def owdAfter (ds : List TelemetryDatagram) : List PathOwd :=
  (ds.map TelemetryDatagram.encode).foldl receiveTelemetry
    (List.replicate TRANSPORT_MAX_PATHS PathOwd.zero)

/-- The entry of a path after telemetry. -/
def owdOf (p : ℕ) (ds : List TelemetryDatagram) : PathOwd := (owdAfter ds).getD p PathOwd.zero

/-- The samples of a path. -/
def samplesOf (p : ℕ) (ds : List TelemetryDatagram) : List TelemetryDatagram :=
  ds.filter fun d => d.pathId.toNat == p

/-! ## Exact delays -/

/-- The entry after a sample is exact: `seen` are the samples so far, `d` is the last of them. -/
structure PathOwd.Exact (seen : List TelemetryDatagram) (d : TelemetryDatagram) (after : PathOwd) :
    Prop where
  min : IsLeast {x | x ∈ seen.map (·.owd)} after.minOwdNs.toInt
  relative : (after.relativeNs d).toInt = d.owd - after.minOwdNs.toInt
  nonneg : 0 ≤ (after.relativeNs d).toInt
  micros : (after.relativeOwdUs.toNat : ℤ) = (after.relativeNs d).toInt / 1000

/-- What has to hold of a sample: it is not above zero while zero is the least delay so far, and it
is less than 2^32 microseconds above each of them. -/
structure SampleFits (seen : List TelemetryDatagram) (d : TelemetryDatagram) : Prop where
  marked : IsLeast {x | x ∈ seen.map (·.owd)} 0 → d.owd ≤ 0
  spread : ∀ s ∈ seen, d.owd - s.owd < 2 ^ 32 * 1000

/-! ## Signed arithmetic -/

theorem toInt_toInt64 {x : UInt64} (h : x.toNat < 2 ^ 63) : x.toInt64.toInt = x.toNat := by
  show x.toBitVec.toInt = x.toNat
  rw [BitVec.toInt_eq_toNat_of_lt]
  · rfl
  · show 2 * x.toNat < 2 ^ 64
    omega

theorem toInt_sub_of_range {a b : Int64} (hle : -2 ^ 63 ≤ a.toInt - b.toInt)
    (hlt : a.toInt - b.toInt < 2 ^ 63) : (a - b).toInt = a.toInt - b.toInt := by
  rw [Int64.toInt_sub]
  exact Int.bmod_eq_of_le hle hlt

/-- The microseconds of a delay that is not negative, cut to 32 bits. -/
theorem toNat_micros {x : Int64} (h : 0 ≤ x.toInt) :
    ((x / 1000).toUInt64.toUInt32.toNat : ℤ) = x.toInt / 1000 % 2 ^ 32 := by
  have hthousand : (1000 : Int64).toInt = 1000 := rfl
  have hdiv : (x / 1000).toInt = x.toInt / 1000 := by
    rw [Int64.toInt_div_of_ne_right x 1000 (by decide), hthousand]
    exact Int.tdiv_eq_ediv_of_nonneg h
  have hnonneg : 0 ≤ (x / 1000).toInt := by omega
  have hnat : ((x / 1000).toUInt64.toNat : ℤ) = (x / 1000).toInt := by
    have hbits : (x / 1000).toBitVec.toInt = (x / 1000).toInt := rfl
    have hcond := BitVec.toInt_eq_toNat_cond (x / 1000).toBitVec
    have hlt := (x / 1000).toBitVec.isLt
    show (((x / 1000).toBitVec.toNat : ℕ) : ℤ) = _
    split at hcond <;> omega
  rw [UInt64.toNat_toUInt32, ← hdiv, ← hnat]
  rfl

variable {d : TelemetryDatagram} {o : PathOwd} {seen : List TelemetryDatagram} {p : ℕ}

theorem TelemetryDatagram.owd_bounds (h : d.Signed) : -2 ^ 63 < d.owd ∧ d.owd < 2 ^ 63 := by
  obtain ⟨hsend, hrecv⟩ := h
  unfold owd
  omega

theorem TelemetryDatagram.toInt_currentOwd (h : d.Signed) : d.currentOwd.toInt = d.owd := by
  have hbounds := owd_bounds h
  have hsend := toInt_toInt64 h.1
  have hrecv := toInt_toInt64 h.2
  have hdiff : d.recvTimeNs.toInt64.toInt - d.sendTimeNs.toInt64.toInt = d.owd := by
    rw [hsend, hrecv]
    rfl
  unfold currentOwd
  rw [toInt_sub_of_range (by omega) (by omega), hdiff]

/-! ## One sample -/

/-- The minimum of a path takes in the difference of a sample. -/
theorem PathOwd.minOwdNs_update (h : d.Signed) (o : PathOwd) :
    (o.update d).minOwdNs.toInt = next 0 o.minOwdNs.toInt d.owd := by
  have hcurrent := TelemetryDatagram.toInt_currentOwd h
  have hzero : o.minOwdNs = 0 ↔ o.minOwdNs.toInt = 0 := Int64.toInt_inj.symm
  have hcond : (o.minOwdNs = 0 ∨ d.currentOwd < o.minOwdNs) ↔
      (o.minOwdNs.toInt = 0 ∨ d.owd < o.minOwdNs.toInt) := by
    rw [hzero, Int64.lt_iff_toInt_lt, hcurrent]
  unfold next
  rw [← hcurrent]
  show (if o.minOwdNs = 0 ∨ d.currentOwd < o.minOwdNs then d.currentOwd else o.minOwdNs).toInt = _
  by_cases hnew : o.minOwdNs = 0 ∨ d.currentOwd < o.minOwdNs
  · rw [if_pos hnew, if_pos (hcurrent ▸ hcond.mp hnew)]
  · rw [if_neg hnew, if_neg (fun hother => hnew (hcond.mpr (hcurrent ▸ hother)))]

theorem PathOwd.relativeOwdUs_update (o : PathOwd) (d : TelemetryDatagram) :
    (o.update d).relativeOwdUs =
      ((o.update d).relativeNs d / 1000).toUInt64.toUInt32 := rfl

/-- The delay above the minimum is exact as long as it fits 32 bits of microseconds. -/
theorem PathOwd.relative_iff (h : d.Signed) (hleast : (o.update d).minOwdNs.toInt ≤ d.owd) :
    (((o.update d).relativeNs d).toInt = d.owd - (o.update d).minOwdNs.toInt ∧
      0 ≤ ((o.update d).relativeNs d).toInt ∧
      ((o.update d).relativeOwdUs.toNat : ℤ) = ((o.update d).relativeNs d).toInt / 1000) ↔
    d.owd - (o.update d).minOwdNs.toInt < 2 ^ 32 * 1000 := by
  have hcurrent := TelemetryDatagram.toInt_currentOwd h
  constructor
  · rintro ⟨hrel, -, hmicros⟩
    have hlt := (o.update d).relativeOwdUs.toNat_lt
    rw [hrel] at hmicros
    omega
  · intro hspread
    have hrel : ((o.update d).relativeNs d).toInt = d.owd - (o.update d).minOwdNs.toInt := by
      unfold relativeNs
      rw [toInt_sub_of_range (by omega) (by omega), hcurrent]
    have hnonneg : 0 ≤ ((o.update d).relativeNs d).toInt := by omega
    refine ⟨hrel, hnonneg, ?_⟩
    rw [relativeOwdUs_update, toNat_micros hnonneg]
    omega

/-- A sample of a path whose minimum is right so far. -/
theorem PathOwd.exact_update_iff (h : d.Signed)
    (htracks : Tracks 0 (seen.map (·.owd)) o.minOwdNs.toInt) :
    (o.update d).Exact (seen ++ [d]) d ↔ SampleFits seen d := by
  have hnext := tracks_next_iff (x := d.owd) htracks
  rw [← minOwdNs_update h, tracks_concat] at hnext
  have hmap : (seen ++ [d]).map (·.owd) = seen.map (·.owd) ++ [d.owd] := by
    rw [List.map_append, List.map_singleton]
  have hspread : IsLeast {x | x ∈ seen.map (·.owd) ++ [d.owd]} (o.update d).minOwdNs.toInt →
      (d.owd - (o.update d).minOwdNs.toInt < 2 ^ 32 * 1000 ↔
        ∀ s ∈ seen, d.owd - s.owd < 2 ^ 32 * 1000) := by
    intro hleast
    obtain ⟨hmem, hseen, -⟩ := isLeast_concat.mp hleast
    constructor
    · intro hlt s hs
      have hle := hseen s.owd (List.mem_map_of_mem hs)
      omega
    · intro hall
      rcases hmem with hmem | heq
      · obtain ⟨s, hs, heq⟩ := List.mem_map.mp hmem
        have hlt := hall s hs
        omega
      · omega
  constructor
  · intro hexact
    have hleast := hexact.min
    rw [hmap] at hleast
    have hle := (isLeast_concat.mp hleast).2.2
    refine ⟨hnext.mp hleast, (hspread hleast).mp ?_⟩
    exact (relative_iff h hle).mp ⟨hexact.relative, hexact.nonneg, hexact.micros⟩
  · intro hrange
    have hleast := hnext.mpr hrange.marked
    have hle := (isLeast_concat.mp hleast).2.2
    obtain ⟨hrel, hnonneg, hmicros⟩ :=
      (relative_iff h hle).mpr ((hspread hleast).mpr hrange.spread)
    exact ⟨hmap ▸ hleast, hrel, hnonneg, hmicros⟩

/-! ## Telemetry of all paths -/

theorem receiveTelemetry_encode (owd : List PathOwd) (d : TelemetryDatagram) :
    receiveTelemetry owd d.encode =
      if d.pathId.toNat < TRANSPORT_MAX_PATHS then owd.modify d.pathId.toNat (·.update d)
      else owd := by
  unfold receiveTelemetry
  rw [TelemetryDatagram.length_encode, if_neg (lt_irrefl _), TelemetryDatagram.decode_encode]

/-- The entry of one path changes. -/
theorem getD_modify_owd {owd : List PathOwd} {i : ℕ} (hi : i < owd.length)
    (f : PathOwd → PathOwd) (j : ℕ) :
    (owd.modify i f).getD j PathOwd.zero =
      if i = j then f (owd.getD j PathOwd.zero) else owd.getD j PathOwd.zero := by
  rw [List.getD_eq_getElem?_getD, List.getD_eq_getElem?_getD]
  by_cases hij : i = j
  · subst hij
    rw [if_pos rfl, List.getElem?_modify_eq, List.getElem?_eq_getElem hi]
    rfl
  · rw [if_neg hij, List.getElem?_modify_ne _ _ hij]

theorem getD_receiveTelemetry {owd : List PathOwd} (hlen : owd.length = TRANSPORT_MAX_PATHS)
    (hp : p < TRANSPORT_MAX_PATHS) (d : TelemetryDatagram) :
    (receiveTelemetry owd d.encode).getD p PathOwd.zero =
      if d.pathId.toNat = p then (owd.getD p PathOwd.zero).update d
      else owd.getD p PathOwd.zero := by
  rw [receiveTelemetry_encode]
  by_cases hstored : d.pathId.toNat < TRANSPORT_MAX_PATHS
  · rw [if_pos hstored, getD_modify_owd (hlen ▸ hstored)]
  · rw [if_neg hstored, if_neg (by omega)]

theorem length_receiveTelemetry (owd : List PathOwd) (d : TelemetryDatagram) :
    (receiveTelemetry owd d.encode).length = owd.length := by
  rw [receiveTelemetry_encode]
  split
  · exact List.length_modify _ _ _
  · rfl

theorem owdAfter_concat (ds : List TelemetryDatagram) (d : TelemetryDatagram) :
    owdAfter (ds ++ [d]) = receiveTelemetry (owdAfter ds) d.encode := by
  unfold owdAfter
  rw [List.map_append, List.foldl_append]
  rfl

theorem length_owdAfter (ds : List TelemetryDatagram) :
    (owdAfter ds).length = TRANSPORT_MAX_PATHS := by
  induction ds using List.reverseRecOn with
  | nil => exact List.length_replicate
  | append_singleton ds d ih => rw [owdAfter_concat, length_receiveTelemetry, ih]

theorem owdOf_concat (hp : p < TRANSPORT_MAX_PATHS) (ds : List TelemetryDatagram)
    (d : TelemetryDatagram) :
    owdOf p (ds ++ [d]) = if d.pathId.toNat = p then (owdOf p ds).update d else owdOf p ds := by
  unfold owdOf
  rw [owdAfter_concat, getD_receiveTelemetry (length_owdAfter ds) hp]

theorem samplesOf_concat (p : ℕ) (ds : List TelemetryDatagram) (d : TelemetryDatagram) :
    samplesOf p (ds ++ [d]) =
      if d.pathId.toNat = p then samplesOf p ds ++ [d] else samplesOf p ds := by
  unfold samplesOf
  rw [List.filter_append, List.filter_singleton]
  by_cases hpath : d.pathId.toNat = p
  · rw [if_pos hpath, beq_iff_eq.mpr hpath, cond_true]
  · rw [if_neg hpath, beq_eq_false_iff_ne.mpr hpath, cond_false, List.append_nil]

/-! ## All samples -/

/-- The entry of one path is exact after each datagram so far. -/
def DelaysExact (p : ℕ) (ds : List TelemetryDatagram) : Prop :=
  ∀ pre d, pre ++ [d] <+: ds → d.pathId.toNat = p →
    (owdOf p (pre ++ [d])).Exact (samplesOf p (pre ++ [d])) d

/-- The delays of one path so far fit its entry. -/
def DelaysFit (p : ℕ) (ds : List TelemetryDatagram) : Prop :=
  ∀ pre d, pre ++ [d] <+: ds → d.pathId.toNat = p → SampleFits (samplesOf p pre) d

/-- A property of every sample in no list. -/
theorem forall_prefix_nil {P : List TelemetryDatagram → TelemetryDatagram → Prop} :
    ∀ pre d, pre ++ [d] <+: [] → P pre d := by
  intro pre d hpre
  have hnil := List.prefix_nil.mp hpre
  exact absurd hnil (List.append_ne_nil_of_right_ne_nil pre (List.cons_ne_nil d []))

/-- A property of every sample in a list that grows by one. -/
theorem forall_prefix_concat {P : List TelemetryDatagram → TelemetryDatagram → Prop}
    {ds : List TelemetryDatagram} {d : TelemetryDatagram} :
    (∀ pre d', pre ++ [d'] <+: ds ++ [d] → P pre d') ↔
      (∀ pre d', pre ++ [d'] <+: ds → P pre d') ∧ P ds d := by
  constructor
  · intro hall
    exact ⟨fun pre d' hpre => hall pre d' (hpre.trans (List.prefix_append ds [d])),
      hall ds d (List.prefix_refl _)⟩
  · rintro ⟨hfront, hlast⟩ pre d' hpre
    rcases List.prefix_concat_iff.mp hpre with heq | hpre
    · obtain ⟨rfl, hd⟩ := List.append_inj' heq rfl
      rw [List.singleton_inj.mp hd]
      exact hlast
    · exact hfront pre d' hpre

/-- The minimum of a path is right as long as its samples are in range. -/
theorem exact_iff_and_tracks (hp : p < TRANSPORT_MAX_PATHS) {ds : List TelemetryDatagram}
    (hsigned : ∀ d ∈ ds, d.Signed) :
    (DelaysExact p ds ↔ DelaysFit p ds) ∧
      (DelaysFit p ds →
        Tracks 0 ((samplesOf p ds).map (·.owd)) (owdOf p ds).minOwdNs.toInt) := by
  -- on the datagrams in the order of their arrival; the minimum so far carries it
  induction ds using List.reverseRecOn with
  | nil =>
    refine ⟨iff_of_true forall_prefix_nil forall_prefix_nil, fun _ => ?_⟩
    have hzero : (owdOf p []).minOwdNs.toInt = 0 := by
      unfold owdOf owdAfter
      rw [List.map_nil, List.foldl_nil, List.getD_eq_getElem?_getD, List.getElem?_replicate]
      split <;> rfl
    rw [hzero]
    exact tracks_nil 0
  | append_singleton ds d ih =>
    obtain ⟨ihiff, ihtracks⟩ := ih fun d' hd' => hsigned d' (List.mem_append_left [d] hd')
    have hd : d.Signed := hsigned d (List.mem_append_right ds (List.mem_singleton_self d))
    have hexact : DelaysExact p (ds ++ [d]) ↔ DelaysExact p ds ∧ (d.pathId.toNat = p →
        (owdOf p (ds ++ [d])).Exact (samplesOf p (ds ++ [d])) d) := forall_prefix_concat
    have hrange : DelaysFit p (ds ++ [d]) ↔ DelaysFit p ds ∧ (d.pathId.toNat = p →
        SampleFits (samplesOf p ds) d) := forall_prefix_concat
    rw [hexact, hrange, owdOf_concat hp, samplesOf_concat]
    by_cases hpath : d.pathId.toNat = p
    · rw [if_pos hpath, if_pos hpath, forall_prop_of_true hpath, forall_prop_of_true hpath]
      have hlast : Tracks 0 ((samplesOf p ds).map (·.owd)) (owdOf p ds).minOwdNs.toInt →
          (((owdOf p ds).update d).Exact (samplesOf p ds ++ [d]) d ↔
            SampleFits (samplesOf p ds) d) :=
        PathOwd.exact_update_iff hd
      constructor
      · rw [ihiff]
        exact and_congr_right fun hfront => hlast (ihtracks hfront)
      · rintro ⟨hfront, hnew⟩
        have hleast := ((hlast (ihtracks hfront)).mpr hnew).min
        rw [List.map_append, List.map_singleton] at hleast ⊢
        exact tracks_concat.mpr hleast
    · rw [if_neg hpath, if_neg hpath]
      -- a datagram of another path leaves this entry alone
      have hno : ∀ {q : Prop}, (d.pathId.toNat = p → q) ↔ True :=
        iff_true_intro fun h => absurd h hpath
      rw [hno, hno, and_true, and_true]
      exact ⟨ihiff, ihtracks⟩

/-- The delays of a path are exact exactly as long as no difference above zero comes while zero is
the least one so far, and none is 2^32 microseconds or more above another one before it. -/
theorem one_way_delay_exact_iff {p : ℕ} (hp : p < TRANSPORT_MAX_PATHS)
    {ds : List TelemetryDatagram} (hsigned : ∀ d ∈ ds, d.Signed) :
    DelaysExact p ds ↔ DelaysFit p ds :=
  (exact_iff_and_tracks hp hsigned).1

/-- A clock that is two nanoseconds behind: the delay of the second sample is 9 ns above the
minimum. -/
theorem one_way_delay_exact_iff_behind :
    DelaysExact 0 [⟨MOQ_TRACK_TELEMETRY, 0, 7, 5⟩, ⟨MOQ_TRACK_TELEMETRY, 0, 7, 14⟩] := by
  refine (one_way_delay_exact_iff (by decide) (by decide)).mpr ?_
  show ∀ pre d, pre ++ [d] <+: ([] ++ [_]) ++ [_] → _
  refine forall_prefix_concat.mpr ⟨forall_prefix_concat.mpr ⟨forall_prefix_nil, ?_⟩, ?_⟩
  · exact fun _ => ⟨fun h => absurd h.1 (by decide), by decide⟩
  · exact fun _ => ⟨fun h => absurd h.1 (by decide), by decide⟩

/-- Clocks that agree and a first sample without delay: its difference of zero reads as "none", and
the next sample becomes the minimum. -/
theorem not_delays_exact_zero :
    (⟨MOQ_TRACK_TELEMETRY, 0, 7, 7⟩ : TelemetryDatagram).Signed ∧
      (⟨MOQ_TRACK_TELEMETRY, 0, 7, 10⟩ : TelemetryDatagram).Signed ∧
      ¬DelaysExact 0 [⟨MOQ_TRACK_TELEMETRY, 0, 7, 7⟩, ⟨MOQ_TRACK_TELEMETRY, 0, 7, 10⟩] := by
  refine ⟨by decide, by decide, fun h => ?_⟩
  have hexact := h [⟨MOQ_TRACK_TELEMETRY, 0, 7, 7⟩] ⟨MOQ_TRACK_TELEMETRY, 0, 7, 10⟩
    (List.prefix_refl _) rfl
  have hmin : (3 : ℤ) ≤ 0 := hexact.min.2 (by decide)
  exact absurd hmin (by decide)

end Bishlink
