import LoNetfw.Net.UriComponents
import LoNetfw.Util.LexicalCast

namespace LoNetfw.Net

open Basis UriGrammar UriParser
open Util (natText)
open scoped Computability

/-!
# `Uri` — ports and text

`getPort`, `isDefaultPort` and `toString` of a `Uri`, and the value of its port.  A port comes from
`atoi`, as an `int` whose low 16 bits are stored; a stored port of `0` reads as the default one
of the scheme, if it has one.

* `digitsValue_append`, `strtol_digits` — what `atoi` sees of the rest of the input;
* `stored_port` — the port that `Uri::create` stores;
* `port_value_iff` — the digits that come out as their value.
-/

/-- `PROTOCAL_MAP`: `http`, `https`, `rtsp` and `mqtt` with their ports. -/
def protocalMap : List (List UInt8 × ℕ) :=
  [([104, 116, 116, 112], 80), ([104, 116, 116, 112, 115], 443), ([114, 116, 115, 112], 554),
    ([109, 113, 116, 116], 1883)]

namespace Uri

/-- `getPort`. -/
def getPort (u : Uri) : ℕ :=
  if u.port ≠ 0 then u.port
  else match protocalMap.lookup u.scheme with
    | some defaultPort => defaultPort
    | none => u.port

/-- `isDefaultPort`; a port that is not set is one, too. -/
def isDefaultPort (u : Uri) : Bool :=
  if u.port = 0 then true
  else match protocalMap.lookup u.scheme with
    | some defaultPort => u.port == defaultPort
    | none => false

/-- `toString`. -/
def toString (u : Uri) : List UInt8 :=
  u.scheme ++ [58, 47, 47] ++ u.userinfo ++ (if u.userinfo.isEmpty then [] else [64]) ++ u.host ++
    (if u.isDefaultPort then [] else 58 :: natText u.port) ++ u.getPath ++
    (if u.query.isEmpty then [] else [63]) ++ u.query ++
    (if u.fragment.isEmpty then [] else [35]) ++ u.fragment

end Uri

/-! ### The value of the digits -/

/-- Behind the digits stands something else, or nothing. -/
def NoDigitHead (rest : List UInt8) : Prop := ∀ b ∈ rest.head?, digit.has b = false

/-- `atoi` reads the digits and stops. -/
theorem digitsValue_append {d : List UInt8} (hd : ∀ b ∈ d, digit.has b = true)
    {rest : List UInt8} (hrest : NoDigitHead rest) (acc : ℕ) :
    digitsValue acc (d ++ rest) = d.foldl (fun n ch => 10 * n + (ch.toNat - 48)) acc := by
  induction d generalizing acc with
  | nil =>
    cases rest with
    | nil => rfl
    | cons b rest =>
      rw [List.nil_append, digitsValue, hrest b rfl]
      rfl
  | cons b d ih =>
    rw [List.cons_append, digitsValue, if_pos (hd b List.mem_cons_self),
      ih fun b hb => hd b (List.mem_cons_of_mem _ hb)]
    rfl

/-- `strtol` at digits reads neither a blank nor a sign. -/
theorem strtol_digits {d : List UInt8} (hd : ∀ b ∈ d, digit.has b = true) (hne : d ≠ [])
    {rest : List UInt8} (hrest : NoDigitHead rest) :
    strtol (d ++ rest) = min (Util.digitsValue d : ℤ) (2 ^ 63 - 1) := by
  obtain ⟨b, t, rfl⟩ := List.exists_cons_of_ne_nil hne
  have hvalue := digitsValue_append hd hrest 0
  obtain ⟨hlow, hhigh⟩ := (UriParts.digit_has b).mp (hd b List.mem_cons_self)
  rw [UInt8.le_iff_toNat_le] at hlow hhigh
  -- a digit is neither a blank nor a sign
  have hblank : (b == 32 || (9 ≤ b && b ≤ 13)) = false := by
    rw [Bool.or_eq_false_iff, beq_eq_false_iff_ne, Bool.and_eq_false_iff, decide_eq_false_iff_not,
      decide_eq_false_iff_not, UInt8.le_iff_toNat_le, UInt8.le_iff_toNat_le]
    refine ⟨?_, Or.inr ?_⟩
    · rintro rfl
      exact absurd hlow (by decide)
    · intro hle
      exact absurd (hlow.trans hle) (by decide)
  have h45 : b ≠ 45 := by
    rintro rfl
    exact absurd hlow (by decide)
  have h43 : b ≠ 43 := by
    rintro rfl
    exact absurd hlow (by decide)
  rw [List.cons_append] at hvalue ⊢
  unfold strtol
  rw [List.dropWhile_cons, hblank, if_neg Bool.false_ne_true]
  split
  · next heq => exact absurd (List.cons.inj heq).1 h45
  · next heq => exact absurd (List.cons.inj heq).1 h43
  · rw [hvalue]
    rfl

/-! ### The port that is stored -/

/-- The low 16 bits of an `int` that `atoi` read; the value is clipped to `long` before. -/
theorem setPort_atoi (u : Uri) {d : List UInt8} (hd : ∀ b ∈ d, digit.has b = true) (hne : d ≠ [])
    {rest : List UInt8} (hrest : NoDigitHead rest) :
    (u.setPort (atoi (d ++ rest))).port = min (Util.digitsValue d) (2 ^ 63 - 1) % 2 ^ 16 := by
  unfold Uri.setPort atoi
  rw [strtol_digits hd hne hrest]
  dsimp only
  -- the low 16 bits survive the conversion to `int`
  rw [Int.bmod_def]
  split <;> omega

namespace UriParts

/-- A path, a query or a fragment does not begin with a digit. -/
theorem noDigitHead_afterPort (c : UriParts) : NoDigitHead c.afterPort := by
  unfold NoDigitHead afterPort
  -- the byte behind the port is `/`, `?` or `#`
  rcases mem_pathAbempty c.path_mem with hpath | ⟨t, hpath, -⟩
  · rw [hpath, List.nil_append]
    cases c.query with
    | some q =>
      rintro b hb
      obtain rfl : 63 = b := Option.some.inj hb
      decide
    | none =>
      cases c.fragment with
      | some f =>
        rintro b hb
        obtain rfl : 35 = b := Option.some.inj hb
        decide
      | none => exact fun b hb => absurd hb (Option.not_mem_none b)
  · rw [hpath]
    rintro b hb
    obtain rfl : 47 = b := Option.some.inj hb
    decide

/-- The port that `Uri::create` stores. -/
theorem stored_port (c : UriParts) :
    c.stored.port = c.port.elim 0 fun d => min (Util.digitsValue d) (2 ^ 63 - 1) % 2 ^ 16 := by
  have hport : c.stored.port = (c.withPort
      { scheme := c.scheme
        userinfo := (c.userinfo.map keptUserinfo).getD []
        host := c.host }).port := by
    obtain ⟨_, u, _, p, _, q, f, _⟩ := c
    cases p <;> cases q <;> cases f <;> rfl
  rw [hport, withPort]
  cases hp : c.port with
  | none => rfl
  | some d =>
    obtain ⟨hd, hne⟩ := c.port_mem d hp
    exact setPort_atoi _ (within_port d hd) hne c.noDigitHead_afterPort

/-- A slash is a path. -/
theorem path_slash : [47] ∈ pathAbempty := by
  rw [pathAbempty_eq]
  refine Language.mem_kstar.mpr ⟨[[47]], rfl, ?_⟩
  intro y hy
  rw [List.mem_singleton.mp hy]
  exact CharClass.cons_mem_mul.mpr ⟨by decide, Language.nil_mem_kstar _⟩

end UriParts

/-! ### Ports of URIs -/

/-- The ports of the grammar are the texts of digits. -/
theorem mem_port_iff {d : List UInt8} :
    d ∈ UriGrammar.port ↔ ∀ b ∈ d, 48 ≤ b ∧ b ≤ 57 := by
  constructor
  · intro h b hb
    exact (UriParts.digit_has b).mp (within_port d h b hb)
  · intro h
    refine Language.mem_kstar.mpr ⟨d.map fun b => [b], ?_, ?_⟩
    · rw [← List.flatMap_def, List.flatMap_singleton']
    · intro y hy
      obtain ⟨b, hb, rfl⟩ := List.mem_map.mp hy
      exact CharClass.singleton_mem_lang ((UriParts.digit_has b).mpr (h b hb))

/-- A port that is present is not empty. -/
theorem port_some {d : List UInt8} (hd : d ∈ UriGrammar.port) (hne : d ≠ []) :
    ∀ p ∈ some d, p ∈ UriGrammar.port ∧ p ≠ [] := by
  intro p hp
  obtain rfl := Option.some.inj hp
  exact ⟨hd, hne⟩

/-- `scheme://host:d/`. -/
def portUri (scheme host d : List UInt8) : List UInt8 :=
  scheme ++ 58 :: 47 :: 47 :: (host ++ 58 :: (d ++ [47]))

variable {scheme host d : List UInt8}

/-- The components of such a URI with a port. -/
def portParts (hscheme : scheme ∈ UriGrammar.scheme) (hhost : host ∈ UriGrammar.host)
    (hd : d ∈ UriGrammar.port) (hne : d ≠ []) : UriParts where
  scheme := scheme
  userinfo := none
  host := host
  port := some d
  path := [47]
  query := none
  fragment := none
  scheme_mem := hscheme
  userinfo_mem := UriParts.userinfo_none
  host_mem := hhost
  port_mem := port_some hd hne
  path_mem := UriParts.path_slash
  query_mem := UriParts.query_none
  fragment_mem := UriParts.fragment_none

/-- The URI of a port has it stored. -/
theorem create_portUri (hscheme : scheme ∈ UriGrammar.scheme) (hhost : host ∈ UriGrammar.host)
    (hd : d ∈ UriGrammar.port) (hne : d ≠ []) :
    Uri.create (portUri scheme host d) = .ok (some (portParts hscheme hhost hd hne).stored) := by
  have happ : portUri scheme host d = (portParts hscheme hhost hd hne).render := by
    simp [portUri, portParts, UriParts.render, UriParts.afterScheme, UriParts.afterPort, atSuffixed,
      prefixed]
  rw [happ, UriParts.create_render]

/-- With an empty port `Uri::create` does not return. -/
theorem create_emptyPort (hscheme : scheme ∈ UriGrammar.scheme) {ui : Option (List UInt8)}
    (hui : ∀ v ∈ ui, v ∈ userinfo) (hhost : host ∈ UriGrammar.host) {p : List UInt8}
    (hp : p ∈ pathAbempty) {t : List UInt8} (ht : t ∈ Item.pathEnd) (r : Option Uri) :
    Uri.create (scheme ++ 58 :: 47 :: 47 :: (atSuffixed ui ++ (host ++ 58 :: (p ++ t)))) ≠
      .ok r := by
  have huser : atSuffixed ui ∈ opt (userinfo * atSign.lang) := by
    cases ui with
    | none => exact Or.inl rfl
    | some u =>
      exact Or.inr (Language.append_mem_mul (hui u rfl) (CharClass.singleton_mem_lang (by decide)))
  have hbyte : ∀ {c : CharClass} {b : UInt8}, c.has b = true → [b] ∈ c.lang :=
    CharClass.singleton_mem_lang
  -- the pieces in their order, as the machine's language of empty ports
  have hmem := Language.append_mem_mul (Language.append_mem_mul (Language.append_mem_mul
    (Language.append_mem_mul (Language.append_mem_mul (Language.append_mem_mul
    (Language.append_mem_mul hscheme (hbyte (c := colon) (b := 58) (by decide)))
    (hbyte (c := slash) (b := 47) (by decide))) (hbyte (c := slash) (b := 47) (by decide))) huser)
    hhost) (hbyte (c := colon) (b := 58) (by decide))) hp
  have hbad : scheme ++ 58 :: 47 :: 47 :: (atSuffixed ui ++ (host ++ 58 :: (p ++ t))) ∈
      emptyPortUri * Item.pathEnd := by
    have happ : scheme ++ 58 :: 47 :: 47 :: (atSuffixed ui ++ (host ++ 58 :: (p ++ t))) =
        scheme ++ [58] ++ [47] ++ [47] ++ atSuffixed ui ++ host ++ [58] ++ p ++ t := by simp
    rw [happ]
    exact Language.append_mem_mul hmem ht
  rw [(Uri.create_error_iff _ .nullMark).mpr ⟨rfl, hbad⟩]
  intro h
  cases h

/-- Without digits `Uri::create` does not return. -/
theorem create_portUri_nil (hscheme : scheme ∈ UriGrammar.scheme)
    (hhost : host ∈ UriGrammar.host) (r : Option Uri) :
    Uri.create (portUri scheme host []) ≠ .ok r :=
  create_emptyPort hscheme UriParts.userinfo_none hhost UriParts.path_slash
    (mem_pathEnd.mpr (.inl rfl)) r

/-- The getter says the value of the digits, and ports beyond 16 bits are rejected. -/
structure PortValueRight (scheme host d : List UInt8) : Prop where
  value : ∀ u, Uri.create (portUri scheme host d) = .ok (some u) → u.getPort = Util.digitsValue d
  rejected : 65535 < Util.digitsValue d → Uri.create (portUri scheme host d) = .ok none

/-- **The value of a port.**  For a scheme without a default port, every host and all strings of
    digits, the port comes out as its value exactly when it is a port: no larger one is
    rejected. -/
theorem port_value_iff (hscheme : scheme ∈ UriGrammar.scheme)
    (hdefault : protocalMap.lookup scheme = none) (hhost : host ∈ UriGrammar.host)
    (hd : ∀ b ∈ d, 48 ≤ b ∧ b ≤ 57) :
    PortValueRight scheme host d ↔ Util.digitsValue d ≤ 65535 := by
  have hd := mem_port_iff.mpr hd
  -- an empty port faults, so no value is given
  by_cases hne : d = []
  · subst hne
    apply iff_of_true
    · exact {
        value := fun u hu => absurd hu (create_portUri_nil hscheme hhost _)
        rejected := fun hlt => absurd hlt (by decide) }
    · exact Nat.zero_le _
  · have hcreate := create_portUri hscheme hhost hd hne
    have hport := (portParts hscheme hhost hd hne).stored_port
    have hsch : (portParts hscheme hhost hd hne).stored.scheme = scheme :=
      (portParts hscheme hhost hd hne).stored_fields.1
    constructor
    · intro h
      by_contra hlt
      have hnone := h.rejected (Nat.lt_of_not_le hlt)
      rw [hcreate] at hnone
      exact absurd (Except.ok.inj hnone) (Option.some_ne_none _)
    · intro hle
      refine ⟨fun u hu => ?_, fun hlt => absurd hle (Nat.not_le_of_lt hlt)⟩
      rw [hcreate] at hu
      obtain rfl := Option.some.inj (Except.ok.inj hu)
      -- below 65536 neither `strtol` nor the conversion changes the number
      have hvalue : (portParts hscheme hhost hd hne).stored.port = Util.digitsValue d := by
        rw [hport]
        show min (Util.digitsValue d) (2 ^ 63 - 1) % 2 ^ 16 = _
        omega
      unfold Uri.getPort
      rw [hsch, hdefault, hvalue]
      split <;> rfl

/-- The host of the test URIs. -/
theorem host_h : [104] ∈ UriGrammar.host := UriParts.portLikePassword.host_mem

/-- A check of all bytes. -/
theorem digits_of_all {d : List UInt8}
    (h : (d.all fun b => decide (48 ≤ b ∧ b ≤ 57)) = true) : ∀ b ∈ d, 48 ≤ b ∧ b ≤ 57 :=
  fun b hb => of_decide_eq_true (List.all_eq_true.mp h b hb)

/-- `x://h:65535/` -/
theorem port_value_65535 : PortValueRight [120] [104] [54, 53, 53, 51, 53] :=
  (port_value_iff UriParts.scheme_x (by decide) host_h (digits_of_all (by decide))).mpr (by decide)

/-- `x://h:65616/` is taken for port 80. -/
theorem port_wraps :
    ¬ ∀ d : List UInt8, (∀ b ∈ d, 48 ≤ b ∧ b ≤ 57) → PortValueRight [120] [104] d := by
  intro h
  have hdigits := digits_of_all (d := [54, 53, 54, 49, 54]) (by decide)
  have hle := (port_value_iff UriParts.scheme_x (by decide) host_h hdigits).mp (h _ hdigits)
  exact absurd hle (by decide)

end LoNetfw.Net
