import Mathlib.Data.List.Dedup
import Mathlib.Data.List.ReduceOption
import Mathlib.Data.List.Perm.Basic

/-!
# Least recently used

A table of slots, each empty or holding a key with the time of its last use. A request for a key
in the table sets its time; any other key takes an empty slot, or else the slot with the least
time. `Tracks` relates such a table to the history of requests: as long as time passes, the keys
in the table are the `n` keys that were requested last, `n` being the number of slots.
-/

namespace Lru

variable {κ : Type*} [DecidableEq κ]

/-! ## What was requested last -/

/-- The different keys of a history, the one requested last first. -/
def recent (h : List κ) : List κ := h.dedup.reverse

theorem nodup_recent (h : List κ) : (recent h).Nodup := by
  rw [recent, List.nodup_reverse]
  exact h.nodup_dedup

theorem dedup_concat (h : List κ) (k : κ) : (h ++ [k]).dedup = h.dedup.erase k ++ [k] := by
  induction h with
  | nil => simp
  | cons a h ih =>
    rw [List.cons_append]
    by_cases hmem : a ∈ h
    · rw [List.dedup_cons_of_mem hmem, List.dedup_cons_of_mem (List.mem_append_left _ hmem), ih]
    rw [List.dedup_cons_of_notMem hmem]
    by_cases hak : a = k
    · subst hak
      have hnot : a ∉ h.dedup := fun hd => hmem (List.mem_dedup.mp hd)
      rw [List.dedup_cons_of_mem (List.mem_append_right _ (List.mem_singleton_self a)), ih,
        List.erase_of_not_mem hnot, List.erase_cons_head]
    · have hnot : a ∉ h ++ [k] := by
        rw [List.mem_append, List.mem_singleton]
        exact not_or.mpr ⟨hmem, hak⟩
      rw [List.dedup_cons_of_notMem hnot, ih, List.erase_cons_tail (by simpa using hak),
        List.cons_append]

/-- A request brings its key to the front. -/
theorem recent_concat (h : List κ) (k : κ) : recent (h ++ [k]) = k :: (recent h).erase k := by
  rw [(nodup_recent h).erase_eq_filter, recent, recent, dedup_concat, List.reverse_append,
    List.reverse_singleton, List.singleton_append, h.nodup_dedup.erase_eq_filter,
    List.filter_reverse]

/-- The last `n` keys after a request for one of them. -/
theorem take_recent_of_mem {h : List κ} {k : κ} {n : ℕ} (hk : k ∈ (recent h).take n) :
    (recent (h ++ [k])).take n = k :: ((recent h).take n).erase k := by
  cases n with
  | zero => simp at hk
  | succ n =>
    have hsplit := List.take_append_drop (n + 1) (recent h)
    have hlen : (((recent h).take (n + 1)).erase k).length =
        ((recent h).take (n + 1)).length - 1 := List.length_erase_of_mem hk
    rw [recent_concat, List.take_succ_cons]
    congr 1
    nth_rewrite 1 [← hsplit]
    rw [List.erase_append_left _ hk]
    by_cases hlong : n + 1 ≤ (recent h).length
    · have heq : (((recent h).take (n + 1)).erase k).length = n := by
        rw [hlen, List.length_take]
        omega
      exact List.take_left' heq
    · have hdrop : (recent h).drop (n + 1) = [] := List.drop_eq_nil_of_le (by omega)
      rw [hdrop, List.append_nil]
      apply List.take_of_length_le
      rw [hlen, List.length_take]
      omega

/-- The last `n` keys after a request for another one: the oldest of `n` is not among them. -/
theorem take_recent_of_not_mem {h : List κ} {k : κ} {n : ℕ} (hn : 0 < n)
    (hk : k ∉ (recent h).take n) :
    (recent (h ++ [k])).take n = k :: ((recent h).take n).take (n - 1) := by
  obtain ⟨m, rfl⟩ : ∃ m, n = m + 1 := ⟨n - 1, by omega⟩
  have hsplit := List.take_append_drop (m + 1) (recent h)
  rw [recent_concat, List.take_succ_cons, Nat.add_sub_cancel]
  congr 1
  nth_rewrite 1 [← hsplit]
  rw [List.erase_append_right _ hk]
  by_cases hlong : m + 1 ≤ (recent h).length
  · apply List.take_append_of_le_length
    rw [List.length_take]
    omega
  · have hdrop : (recent h).drop (m + 1) = [] := List.drop_eq_nil_of_le (by omega)
    rw [hdrop, List.erase_nil, List.append_nil]

/-! ## The table -/

/-- The keys of the table, ordered by their times, are the ones requested last. -/
def Tracks (s : List (Option (κ × ℕ))) (h : List κ) : Prop :=
  ∃ order : List (κ × ℕ), s.reduceOption.Perm order ∧
    order.Pairwise (fun x y => y.2 < x.2) ∧ order.map Prod.fst = (recent h).take s.length

theorem tracks_empty (n : ℕ) : Tracks (κ := κ) (List.replicate n none) [] := by
  refine ⟨[], ?_, List.Pairwise.nil, ?_⟩
  · rw [List.reduceOption_replicate_none]
  · rw [recent, List.dedup_nil, List.reverse_nil, List.take_nil, List.map_nil]

/-- The table holds exactly the keys requested last. -/
theorem Tracks.mem_iff {s : List (Option (κ × ℕ))} {h : List κ} (ht : Tracks s h) {k : κ} :
    (∃ t, some (k, t) ∈ s) ↔ k ∈ (recent h).take s.length := by
  obtain ⟨order, hperm, -, hkeys⟩ := ht
  rw [← hkeys, List.mem_map]
  constructor
  · rintro ⟨t, ht⟩
    exact ⟨(k, t), hperm.mem_iff.mp (List.reduceOption_mem_iff.mpr ht), rfl⟩
  · rintro ⟨x, hx, rfl⟩
    exact ⟨x.2, List.reduceOption_mem_iff.mp (hperm.mem_iff.mpr hx)⟩

/-! ## Requests -/

omit [DecidableEq κ] in
theorem reduceOption_split (pre post : List (Option (κ × ℕ))) (x : κ × ℕ) :
    (pre ++ some x :: post).reduceOption = pre.reduceOption ++ x :: post.reduceOption := by
  rw [List.reduceOption_append, List.reduceOption_cons_of_some]

/-- The times of the table are all before `now`. -/
def Before (s : List (Option (κ × ℕ))) (now : ℕ) : Prop := ∀ x, some x ∈ s → x.2 < now

omit [DecidableEq κ] in
/-- The order without a key still lists the rest of the table. -/
theorem perm_of_split {pre post : List (Option (κ × ℕ))} {x : κ × ℕ} {a b : List (κ × ℕ)}
    (hperm : (pre ++ some x :: post).reduceOption.Perm (a ++ x :: b)) :
    (pre ++ post).reduceOption.Perm (a ++ b) := by
  rw [reduceOption_split] at hperm
  rw [List.reduceOption_append]
  have hcons := List.perm_middle.symm.trans (hperm.trans List.perm_middle)
  exact hcons.cons_inv

/-- A new front of the order, with the time `now`. -/
theorem tracks_front {pre post : List (Option (κ × ℕ))} {k : κ} {now : ℕ} {rest : List (κ × ℕ)}
    {h : List κ} (hperm : (pre ++ post).reduceOption.Perm rest)
    (hsorted : rest.Pairwise fun x y => y.2 < x.2) (hnow : Before (pre ++ post) now)
    (hkeys : k :: rest.map Prod.fst = (recent (h ++ [k])).take (pre.length + 1 + post.length)) :
    Tracks (pre ++ some (k, now) :: post) (h ++ [k]) := by
  refine ⟨(k, now) :: rest, ?_, ?_, ?_⟩
  · rw [reduceOption_split]
    rw [List.reduceOption_append] at hperm
    exact List.perm_middle.trans (hperm.cons _)
  · refine List.pairwise_cons.mpr ⟨fun x hx => ?_, hsorted⟩
    exact hnow x (List.reduceOption_mem_iff.mp (hperm.mem_iff.mpr hx))
  · rw [List.map_cons, hkeys, List.length_append, List.length_cons]
    congr 1
    omega

omit [DecidableEq κ] in
theorem Before.tail {pre post : List (Option (κ × ℕ))} {o : Option (κ × ℕ)} {now : ℕ}
    (h : Before (pre ++ o :: post) now) : Before (pre ++ post) now := by
  intro x hx
  apply h x
  rcases List.mem_append.mp hx with hx | hx
  · exact List.mem_append_left _ hx
  · exact List.mem_append_right _ (List.mem_cons_of_mem o hx)

/-- A request for a key in the table. -/
theorem Tracks.hit {pre post : List (Option (κ × ℕ))} {k : κ} {t now : ℕ} {h : List κ}
    (ht : Tracks (pre ++ some (k, t) :: post) h)
    (hnow : Before (pre ++ some (k, t) :: post) now) :
    Tracks (pre ++ some (k, now) :: post) (h ++ [k]) := by
  have hlen : (pre ++ some (k, t) :: post).length = pre.length + 1 + post.length := by
    rw [List.length_append, List.length_cons]
    omega
  have hk := ht.mem_iff.mp ⟨t, List.mem_append_right pre List.mem_cons_self⟩
  obtain ⟨order, hperm, hsorted, hkeys⟩ := ht
  have hmem : (k, t) ∈ order := by
    rw [← hperm.mem_iff, reduceOption_split]
    exact List.mem_append_right _ List.mem_cons_self
  obtain ⟨a, b, rfl⟩ := List.append_of_mem hmem
  rw [hlen] at hk hkeys
  apply tracks_front (perm_of_split hperm) _ hnow.tail
  · have hnodup : ((a ++ (k, t) :: b).map Prod.fst).Nodup := by
      rw [hkeys]
      exact (nodup_recent h).sublist (List.take_sublist _ _)
    rw [List.map_append, List.map_cons] at hnodup hkeys
    have hnot : k ∉ a.map Prod.fst := by
      intro hka
      exact (List.nodup_append.mp hnodup).2.2 k hka k List.mem_cons_self rfl
    rw [take_recent_of_mem hk, ← hkeys, List.map_append, List.erase_append_right _ hnot,
      List.erase_cons_head]
  · exact hsorted.sublist ((List.Sublist.refl a).append (List.sublist_cons_self _ b))

/-- A request for another key, which takes an empty slot. -/
theorem Tracks.fill {pre post : List (Option (κ × ℕ))} {k : κ} {now : ℕ} {h : List κ}
    (ht : Tracks (pre ++ none :: post) h) (hnow : Before (pre ++ none :: post) now)
    (hk : ∀ t, some (k, t) ∉ pre ++ none :: post) :
    Tracks (pre ++ some (k, now) :: post) (h ++ [k]) := by
  have hlen : (pre ++ none :: post).length = pre.length + 1 + post.length := by
    rw [List.length_append, List.length_cons]
    omega
  have hnot : k ∉ (recent h).take (pre ++ none :: post).length := by
    intro hmem
    obtain ⟨t, hkt⟩ := ht.mem_iff.mpr hmem
    exact hk t hkt
  obtain ⟨order, hperm, hsorted, hkeys⟩ := ht
  have hred : (pre ++ none :: post).reduceOption = (pre ++ post).reduceOption := by
    rw [List.reduceOption_append, List.reduceOption_cons_of_none, List.reduceOption_append]
  rw [hred] at hperm
  rw [hlen] at hnot hkeys
  apply tracks_front hperm hsorted hnow.tail
  -- an empty slot: fewer than `n` keys, and none is dropped
  have hshort : (order.map Prod.fst).length ≤ pre.length + 1 + post.length - 1 := by
    rw [List.length_map, ← hperm.length_eq]
    have hle := List.reduceOption_length_le (pre ++ post)
    rw [List.length_append] at hle
    omega
  rw [take_recent_of_not_mem (by omega) hnot, ← hkeys, List.take_of_length_le hshort]

/-- A request for another key, which takes the slot with the least time. -/
theorem Tracks.replace {pre post : List (Option (κ × ℕ))} {k k' : κ} {t now : ℕ} {h : List κ}
    (ht : Tracks (pre ++ some (k', t) :: post) h)
    (hnow : Before (pre ++ some (k', t) :: post) now)
    (hk : ∀ u, some (k, u) ∉ pre ++ some (k', t) :: post)
    (hfull : none ∉ pre ++ some (k', t) :: post)
    (hleast : ∀ x, some x ∈ pre ++ some (k', t) :: post → t ≤ x.2) :
    Tracks (pre ++ some (k, now) :: post) (h ++ [k]) := by
  have hlen : (pre ++ some (k', t) :: post).length = pre.length + 1 + post.length := by
    rw [List.length_append, List.length_cons]
    omega
  have hnot : k ∉ (recent h).take (pre ++ some (k', t) :: post).length := by
    intro hmem
    obtain ⟨u, hku⟩ := ht.mem_iff.mpr hmem
    exact hk u hku
  obtain ⟨order, hperm, hsorted, hkeys⟩ := ht
  have hmem : (k', t) ∈ order := by
    rw [← hperm.mem_iff, reduceOption_split]
    exact List.mem_append_right _ List.mem_cons_self
  obtain ⟨a, b, rfl⟩ := List.append_of_mem hmem
  -- nothing is older than the slot with the least time
  have hb : b = [] := by
    rw [List.eq_nil_iff_forall_not_mem]
    intro x hx
    have hle := hleast x (List.reduceOption_mem_iff.mp (hperm.mem_iff.mpr
      (List.mem_append_right a (List.mem_cons_of_mem _ hx))))
    have hlt := List.rel_of_pairwise_cons (List.pairwise_append.mp hsorted).2.1 hx
    omega
  subst hb
  have hcount : a.length + 1 = pre.length + 1 + post.length := by
    have hall := List.reduceOption_length_eq_iff.mpr fun o ho => by
      rw [Option.isSome_iff_ne_none]
      rintro rfl
      exact hfull ho
    rw [hperm.length_eq, hlen, List.length_append, List.length_singleton] at hall
    exact hall
  rw [hlen] at hnot hkeys
  have hrest := perm_of_split hperm
  rw [List.append_nil] at hrest
  apply tracks_front hrest (List.pairwise_append.mp hsorted).1 hnow.tail
  have htake : ((a ++ [(k', t)]).map Prod.fst).take (pre.length + 1 + post.length - 1) =
      a.map Prod.fst := by
    rw [List.map_append]
    apply List.take_left'
    rw [List.length_map]
    omega
  rw [take_recent_of_not_mem (by omega) hnot, ← hkeys, htake]

end Lru
