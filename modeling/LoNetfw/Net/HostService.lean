import LoNetfw.Net.IpLiteral
import Mathlib.Data.List.TakeWhile

namespace LoNetfw.Net

open UriGrammar
open scoped Computability

/-!
# `Address::parse` — host and service

`parse` cuts a host string into the node and the service for `getaddrinfo`: first at a pair of
brackets, and where that has left the node empty at a single colon.  The two passes share the
service, which points into the host string, and both results are passed as C strings, which
end at the first zero byte.

* `bracketPass`, `colonPass`, `getaddrinfoArgs` — the two passes, and what is passed;
* `args_bracketed`, `args_no_colon`, `args_one_colon`, `args_first_colon`, `args_colons` — what is
  passed for each kind of string;
* `host_service_iff` — the strings that are cut as they should be.
-/

namespace Address

/-- `memchr` from a position on; the result is a position in the string. -/
def memchr (s : List UInt8) (start : ℕ) (c : UInt8) : Option ℕ :=
  ((s.drop start).idxOf? c).map fun i => start + i

/-- What a C function reads at a position of the string. -/
def cString (s : List UInt8) (start : ℕ) : List UInt8 := (s.drop start).takeWhile (· != 0)

/-- The closing bracket of a string that begins with `[`. -/
def endIpv6 (host : List UInt8) : Option ℕ :=
  if host.head? = some 91 then memchr host 1 93 else none

/-- The first pass: the node and the service, a position in the string. -/
def bracketPass (host : List UInt8) : List UInt8 × Option ℕ :=
  match endIpv6 host with
  | some e => (host.take e, if host[e + 1]? = some 58 then some (e + 2) else none)
  | none => ([], none)

/-- The second pass, for an empty node. -/
def colonPass (host : List UInt8) : List UInt8 × Option ℕ :=
  match memchr host 0 58 with
  | some service =>
    match memchr host (service + 1) 58 with
    -- with a second colon the service stays where it is
    | some _ => ([], some service)
    | none => (host.take service, some (service + 1))
  | none => ([], none)

/-- The node and the service after both passes. -/
def split (host : List UInt8) : List UInt8 × Option ℕ :=
  let bracket := bracketPass host
  let (node, service) := if bracket.1 = [] then colonPass host else bracket
  (if node = [] then host else node, service)

/-- The first two arguments of `getaddrinfo`. -/
def getaddrinfoArgs (host : List UInt8) : List UInt8 × Option (List UInt8) :=
  (cString (split host).1 0, (split host).2.map (cString host))

/-! ### The strings that C functions see -/

/-- A C string is read whole exactly when no byte of it is zero. -/
theorem cString_self_iff {s : List UInt8} : cString s 0 = s ↔ 0 ∉ s := by
  unfold cString
  rw [List.drop_zero, List.takeWhile_eq_self_iff]
  constructor
  · intro h hzero
    exact absurd (h 0 hzero) (by decide)
  · rintro h b hb
    exact bne_iff_ne.mpr (ne_of_mem_of_not_mem hb h)

/-- A C string that starts behind a prefix does not see the prefix. -/
theorem cString_append (a b : List UInt8) : cString (a ++ b) a.length = cString b 0 := by
  unfold cString
  rw [List.drop_left, List.drop_zero]

/-- `memchr` fails exactly when the byte does not occur from `start` on. -/
theorem memchr_eq_none_iff {s : List UInt8} {start : ℕ} {c : UInt8} :
    memchr s start c = none ↔ c ∉ s.drop start := by
  unfold memchr
  rw [Option.map_eq_none_iff, List.idxOf?_eq_none_iff]

/-- The first occurrence behind a position. -/
theorem memchr_append {c : UInt8} {a : List UInt8} (ha : c ∉ a) (u r : List UInt8) :
    memchr (u ++ (a ++ c :: r)) u.length c = some (u.length + a.length) := by
  have hidx : (a ++ c :: r).idxOf? c = some a.length := by
    unfold List.idxOf?
    have hnone : a.findIdx? (· == c) = none := by
      rw [List.findIdx?_eq_none_iff]
      intro x hx
      exact beq_false_of_ne (ne_of_mem_of_not_mem hx ha)
    rw [List.findIdx?_append, hnone, List.findIdx?_cons]
    simp
  unfold memchr
  rw [List.drop_left, hidx, Option.map_some]

/-! ### What is passed for each kind of string -/

/-- A bracketed host: the node keeps its opening bracket. -/
theorem args_bracketed {h : List UInt8} (hh : 93 ∉ h) (r : List UInt8) :
    getaddrinfoArgs (91 :: (h ++ 93 :: r)) =
      (cString (91 :: h) 0, if r.head? = some 58 then some (cString r 1) else none) := by
  have hend : endIpv6 (91 :: (h ++ 93 :: r)) = some (1 + h.length) := by
    unfold endIpv6
    rw [List.head?_cons, if_pos rfl]
    exact memchr_append hh [91] r
  -- the node keeps its `[`: the text is cut before the `]`
  have htake : (91 :: (h ++ 93 :: r)).take (1 + h.length) = 91 :: h := by
    rw [Nat.add_comm, List.take_succ_cons, List.take_left]
  have hnext : (91 :: (h ++ 93 :: r))[1 + h.length + 1]? = r.head? := by
    rw [Nat.add_comm 1, List.getElem?_cons_succ, List.getElem?_append_right (Nat.le_succ _),
      Nat.succ_sub (Nat.le_refl _), Nat.sub_self, List.getElem?_cons_succ, List.head?_eq_getElem?]
  have hsplit : split (91 :: (h ++ 93 :: r)) =
      (91 :: h, if r.head? = some 58 then some (1 + h.length + 2) else none) := by
    unfold split bracketPass
    rw [hend]
    dsimp only
    rw [htake, hnext, if_neg (List.cons_ne_nil 91 h)]
    dsimp only
    rw [if_neg (List.cons_ne_nil 91 h)]
  unfold getaddrinfoArgs
  rw [hsplit]
  refine Prod.ext rfl ?_
  dsimp only
  by_cases hr : r.head? = some 58
  · rw [if_pos hr, if_pos hr, Option.map_some]
    -- the service is read from behind the colon
    have happ : 91 :: (h ++ 93 :: r) = (91 :: (h ++ [93])) ++ r := by simp
    have hlen : 1 + h.length + 2 = (91 :: (h ++ [93]) : List UInt8).length + 1 := by
      simp only [List.length_cons, List.length_append, List.length_nil]
      omega
    unfold cString
    rw [happ, hlen, List.drop_append, List.drop_of_length_le (Nat.le_succ _), List.nil_append,
      Nat.add_sub_cancel_left]
  · rw [if_neg hr, if_neg hr]
    rfl

/-- Without brackets only the second pass counts. -/
theorem split_of_no_bracket {host : List UInt8} (h : endIpv6 host = none) :
    split host =
      (if (colonPass host).1 = [] then host else (colonPass host).1, (colonPass host).2) := by
  unfold split bracketPass
  rw [h]
  rfl

/-- Without a colon the string is the node, and there is no service. -/
theorem args_no_colon {host : List UInt8} (h : endIpv6 host = none) (hcolon : 58 ∉ host) :
    getaddrinfoArgs host = (cString host 0, none) := by
  have hpass : colonPass host = ([], none) := by
    unfold colonPass
    rw [memchr_eq_none_iff.mpr hcolon]
  unfold getaddrinfoArgs
  rw [split_of_no_bracket h, hpass]
  rfl

/-- The second pass at the first colon of the string. -/
theorem colonPass_append {a : List UInt8} (ha : 58 ∉ a) (r : List UInt8) :
    colonPass (a ++ 58 :: r) =
      if 58 ∈ r then ([], some a.length) else (a, some (a.length + 1)) := by
  have hfirst : memchr (a ++ 58 :: r) 0 58 = some a.length := by
    have := memchr_append ha [] r
    rwa [List.nil_append, List.length_nil, Nat.zero_add] at this
  have hdrop : (a ++ 58 :: r).drop (a.length + 1) = r := by
    rw [List.drop_append, List.drop_of_length_le (Nat.le_succ _), List.nil_append,
      Nat.add_sub_cancel_left, List.drop_succ_cons, List.drop_zero]
  unfold colonPass
  rw [hfirst]
  dsimp only
  -- `memchr` is asked a second time, behind the first colon
  by_cases hr : 58 ∈ r
  · rw [if_pos hr]
    cases hsecond : memchr (a ++ 58 :: r) (a.length + 1) 58 with
    | none =>
      rw [memchr_eq_none_iff, hdrop] at hsecond
      exact absurd hr hsecond
    | some i => rfl
  · rw [if_neg hr, memchr_eq_none_iff.mpr (by rw [hdrop]; exact hr)]
    dsimp only
    rw [List.take_left]

/-- A node and a service. -/
theorem args_one_colon {a r : List UInt8} (h : endIpv6 (a ++ 58 :: r) = none) (hne : a ≠ [])
    (ha : 58 ∉ a) (hr : 58 ∉ r) :
    getaddrinfoArgs (a ++ 58 :: r) = (cString a 0, some (cString r 0)) := by
  have hservice : cString (a ++ 58 :: r) (a.length + 1) = cString r 0 := by
    have happ : a ++ 58 :: r = (a ++ [58]) ++ r := by simp
    have hlen : a.length + 1 = (a ++ [58]).length := by
      rw [List.length_append, List.length_singleton]
    rw [happ, hlen, cString_append]
  unfold getaddrinfoArgs
  rw [split_of_no_bracket h, colonPass_append ha, if_neg hr, if_neg hne, Option.map_some, hservice]

/-- With nothing before the colon the node is the whole string, and there is still a service. -/
theorem args_first_colon {r : List UInt8} (hr : 58 ∉ r) :
    getaddrinfoArgs (58 :: r) = (cString (58 :: r) 0, some (cString r 0)) := by
  have hpass : colonPass (58 :: r) = ([], some 1) := by
    have := colonPass_append (List.not_mem_nil (a := (58 : UInt8))) r
    rwa [List.nil_append, if_neg hr] at this
  unfold getaddrinfoArgs
  rw [split_of_no_bracket rfl, hpass]
  rfl

/-- With a second colon the service is left at the first one. -/
theorem args_colons {a r : List UInt8} (h : endIpv6 (a ++ 58 :: r) = none) (ha : 58 ∉ a)
    (hr : 58 ∈ r) :
    getaddrinfoArgs (a ++ 58 :: r) = (cString (a ++ 58 :: r) 0, some (cString (58 :: r) 0)) := by
  unfold getaddrinfoArgs
  rw [split_of_no_bracket h, colonPass_append ha, if_pos hr, if_pos rfl, Option.map_some,
    cString_append]

/-! ### The strings that are cut as they should be -/

/-- The string has no brackets. -/
def NoBrackets (host : List UInt8) : Prop := 91 ∉ host ∧ 93 ∉ host

/-- The string is a node and a service with a colon between them. -/
def NodeService (host a b : List UInt8) : Prop := host = a ++ 58 :: b ∧ a ≠ [] ∧ 58 ∉ a ∧ 58 ∉ b

/-- What should be passed for a string. -/
structure SplitRight (host : List UInt8) : Prop where
  bracketed : ∀ h, 93 ∉ h → host = 91 :: (h ++ [93]) → getaddrinfoArgs host = (h, none)
  bracketedService : ∀ h p, 93 ∉ h → host = 91 :: (h ++ 93 :: 58 :: p) →
    getaddrinfoArgs host = (h, some p)
  nodeService : NoBrackets host → ∀ a b, NodeService host a b → getaddrinfoArgs host = (a, some b)
  other : NoBrackets host → (∀ a b, ¬ NodeService host a b) → getaddrinfoArgs host = (host, none)

/-- The string is one in brackets, alone or with a service. -/
def Bracketed (host : List UInt8) : Prop :=
  ∃ h r, 93 ∉ h ∧ host = 91 :: (h ++ 93 :: r) ∧ (r = [] ∨ r.head? = some 58)

/-- The string has no brackets around a host; and if it has none at all, it has no zero byte,
    and at most one colon, which is not its first byte. -/
def Splits (host : List UInt8) : Prop :=
  ¬ Bracketed host ∧ (NoBrackets host →
    0 ∉ host ∧ host.count 58 ≤ 1 ∧ host.head? ≠ some 58)

/-- A node in brackets is never passed without its opening bracket. -/
theorem node_ne_of_bracketed {h : List UInt8} (hh : 93 ∉ h) (r : List UInt8) :
    (getaddrinfoArgs (91 :: (h ++ 93 :: r))).1 ≠ h := by
  rw [args_bracketed hh]
  intro heq
  -- what is passed has no zero byte, and then it is all of `[h`
  have hzero : 0 ∉ (91 :: h : List UInt8) := by
    rw [List.mem_cons, not_or]
    refine ⟨by decide, fun hmem => ?_⟩
    rw [← heq] at hmem
    have hne := List.mem_takeWhile_imp hmem
    exact absurd hne (by decide)
  have hself : 91 :: h = h := (cString_self_iff.mpr hzero).symm.trans heq
  exact absurd (congrArg List.length hself) (by simp)

/-- A string without brackets is left to the second pass. -/
theorem endIpv6_of_noBrackets {host : List UInt8} (h : NoBrackets host) : endIpv6 host = none := by
  unfold endIpv6
  rw [if_neg]
  intro hhead
  exact h.1 (List.mem_of_mem_head? hhead)

/-- A string with a second colon is no node with a service. -/
theorem not_nodeService_of_mem {a r : List UInt8} (ha : 58 ∉ a) (hr : 58 ∈ r) (a' b' : List UInt8) :
    ¬ NodeService (a ++ 58 :: r) a' b' := by
  rintro ⟨heq, -, ha', hb'⟩
  obtain ⟨-, rfl⟩ := append_cons_inj ha ha' heq
  exact hb' hr

/-- Nor is one with nothing before its first colon. -/
theorem not_nodeService_cons {r : List UInt8} (a' b' : List UInt8) :
    ¬ NodeService (58 :: r) a' b' := by
  rintro ⟨heq, hne, ha', -⟩
  obtain ⟨rfl, -⟩ := append_cons_inj (List.not_mem_nil (a := (58 : UInt8))) ha' heq
  exact hne rfl

/-- A string without brackets is cut as it should be. -/
theorem noBrackets_iff {host : List UInt8} (h : NoBrackets host) :
    ((∀ a b, NodeService host a b → getaddrinfoArgs host = (a, some b)) ∧
      ((∀ a b, ¬ NodeService host a b) → getaddrinfoArgs host = (host, none))) ↔
    0 ∉ host ∧ host.count 58 ≤ 1 ∧ host.head? ≠ some 58 := by
  have hend := endIpv6_of_noBrackets h
  by_cases hcolon : 58 ∈ host
  · obtain ⟨a, r, rfl, ha⟩ := List.eq_append_cons_of_mem hcolon
    have hcount : (a ++ 58 :: r).count 58 = r.count 58 + 1 := by
      rw [List.count_append, List.count_eq_zero_of_not_mem ha, List.count_cons_self, Nat.zero_add]
    by_cases hr : 58 ∈ r
    · -- two colons: there is a service
      apply iff_of_false
      · rintro ⟨-, hother⟩
        have hargs := hother (not_nodeService_of_mem ha hr)
        rw [args_colons hend ha hr] at hargs
        exact absurd (congrArg Prod.snd hargs) (by simp)
      · rintro ⟨-, hle, -⟩
        have := List.count_pos_iff.mpr hr
        omega
    · have hzero := List.count_eq_zero_of_not_mem hr
      by_cases hne : a = []
      · -- a colon at the start: there is a service, too
        subst hne
        rw [List.nil_append]
        apply iff_of_false
        · rintro ⟨-, hother⟩
          have hargs := hother not_nodeService_cons
          rw [args_first_colon hr] at hargs
          exact absurd (congrArg Prod.snd hargs) (by simp)
        · rintro ⟨-, -, hhead⟩
          exact hhead rfl
      -- one colon: the parts are right unless a zero cuts one of them
      · have hnode : NodeService (a ++ 58 :: r) a r := ⟨rfl, hne, ha, hr⟩
        have hhead : (a ++ 58 :: r).head? ≠ some 58 := by
          rw [List.head?_append_of_ne_nil _ hne]
          exact fun hmem => ha (List.mem_of_mem_head? hmem)
        have hmem : 0 ∉ a ++ 58 :: r ↔ 0 ∉ a ∧ 0 ∉ r := by simp
        rw [args_one_colon hend hne ha hr, hmem]
        constructor
        · rintro ⟨hright, -⟩
          have hargs := Prod.mk.inj (hright a r hnode)
          exact ⟨⟨cString_self_iff.mp hargs.1, cString_self_iff.mp (Option.some.inj hargs.2)⟩,
            by omega, hhead⟩
        · rintro ⟨⟨hza, hzr⟩, -, -⟩
          refine ⟨?_, fun hnone => absurd hnode (hnone a r)⟩
          rintro a' b' ⟨heq, -, ha', -⟩
          obtain ⟨rfl, rfl⟩ := append_cons_inj ha ha' heq
          rw [cString_self_iff.mpr hza, cString_self_iff.mpr hzr]
  -- no colon: the whole text is the node
  · have hnone : ∀ a b, ¬ NodeService host a b := by
      rintro a b ⟨rfl, -⟩
      exact hcolon (by simp)
    have hhead : host.head? ≠ some 58 := fun hmem => hcolon (List.mem_of_mem_head? hmem)
    rw [args_no_colon hend hcolon]
    constructor
    · rintro ⟨-, hother⟩
      refine ⟨cString_self_iff.mp (Prod.mk.inj (hother hnone)).1, ?_, hhead⟩
      rw [List.count_eq_zero_of_not_mem hcolon]
      exact Nat.zero_le 1
    · rintro ⟨hzero, -, -⟩
      refine ⟨fun a b hnode => absurd hnode (hnone a b), fun _ => ?_⟩
      rw [cString_self_iff.mpr hzero]

/-- **Host and service.**  What `parse` passes to `getaddrinfo` is right exactly for the strings
    that have no host in brackets and, if they have no brackets at all, no zero byte and no
    colon but a single one behind the first byte. -/
theorem host_service_iff (host : List UInt8) : SplitRight host ↔ Splits host := by
  constructor
  · intro hright
    refine ⟨?_, fun h => (noBrackets_iff h).mp ⟨hright.nodeService h, hright.other h⟩⟩
    rintro ⟨h, r, hh, rfl, hr⟩
    -- a bracketed host is never split right
    have hnode := node_ne_of_bracketed hh r
    rcases hr with rfl | hr
    · exact hnode (congrArg Prod.fst (hright.bracketed h hh rfl))
    · obtain ⟨p, rfl⟩ := List.head?_eq_some_iff.mp hr
      exact hnode (congrArg Prod.fst (hright.bracketedService h p hh rfl))
  · rintro ⟨hbracket, hplain⟩
    exact {
      bracketed := fun h hh heq => absurd ⟨h, [], hh, heq, Or.inl rfl⟩ hbracket
      bracketedService := fun h p hh heq => absurd ⟨h, 58 :: p, hh, heq, Or.inr rfl⟩ hbracket
      nodeService := fun h => ((noBrackets_iff h).mpr (hplain h)).1
      other := fun h => ((noBrackets_iff h).mpr (hplain h)).2 }

/-- `[::1]:80`, `::1` and `:80` are all cut in the wrong places. -/
theorem host_service_wrong :
    ¬ SplitRight [91, 58, 58, 49, 93, 58, 56, 48] ∧ ¬ SplitRight [58, 58, 49] ∧
      ¬ SplitRight [58, 56, 48] := by
  refine ⟨?_, ?_, ?_⟩
  · rw [host_service_iff]
    intro h
    exact h.1 ⟨[58, 58, 49], [58, 56, 48], by decide, rfl, Or.inr rfl⟩
  · rw [host_service_iff]
    intro h
    exact absurd (h.2 ⟨by decide, by decide⟩).2.1 (by decide)
  · rw [host_service_iff]
    intro h
    exact absurd (h.2 ⟨by decide, by decide⟩).2.2 (by decide)

end Address

end LoNetfw.Net
