import LoNetfw.Net.UriFields

namespace LoNetfw.Net

open Basis UriGrammar
open Util (natText)

/-!
# Printing a `Uri`

`toString` leaves out default ports, empty queries and empty fragments, and it puts a `/` for an
empty path.  What it prints is a URI of components again, so `Uri::create` reads back all of them;
the port alone comes back as `0` where it was left out, and `getPort` says the same of both.

* `toString_eq_render` — the components that are printed;
* `printed_agrees` — the `Uri` that is read back;
* `print_stable` — printing what is read back gives the same text.
-/

/-- A component that is printed unless it is empty. -/
def unlessEmpty (w : List UInt8) : Option (List UInt8) := if w.isEmpty then none else some w

/-- A part that is printed is in the language of its field. -/
theorem mem_of_unlessEmpty {L : Language UInt8} {w : List UInt8} (hw : w ∈ L) :
    ∀ v ∈ unlessEmpty w, v ∈ L := by
  intro v hv
  unfold unlessEmpty at hv
  split at hv
  · exact absurd hv (Option.not_mem_none v)
  · obtain rfl := Option.some.inj hv
    exact hw

/-- A part that is left out is empty. -/
theorem unlessEmpty_getD (w : List UInt8) : (unlessEmpty w).getD [] = w := by
  cases w <;> rfl

/-- An empty component and its separator are both left out. -/
theorem prefixed_unlessEmpty (sep : UInt8) (w : List UInt8) :
    prefixed sep (unlessEmpty w) = (if w.isEmpty then [] else [sep]) ++ w := by
  cases w <;> rfl

namespace Uri

/-- The path that is reported is one. -/
theorem getPath_mem {u : Uri} (h : u.path ∈ pathAbempty) : u.getPath ∈ pathAbempty := by
  unfold getPath
  split
  · exact UriParts.path_slash
  · exact h

/-- A reported path that is stored is reported again. -/
theorem getPath_of_path {u v : Uri} (h : v.path = u.getPath) : v.getPath = u.getPath := by
  have hne : u.getPath ≠ [] := by
    unfold getPath
    split
    · exact List.cons_ne_nil 47 []
    · next hpath => simpa using hpath
  rw [getPath, h, if_neg]
  simpa using hne

/-- A port that is not printed reads the same as no port. -/
theorem getPort_of_default {u v : Uri} (hdefault : u.isDefaultPort = true)
    (hscheme : v.scheme = u.scheme) (hport : v.port = 0) : v.getPort = u.getPort := by
  by_cases h0 : u.port = 0
  · rw [getPort, getPort, hport, h0, hscheme]
  · rw [isDefaultPort, if_neg h0] at hdefault
    rw [getPort, getPort, hport, hscheme, if_neg (not_not_intro rfl), if_pos h0]
    cases hlookup : protocalMap.lookup u.scheme with
    | none =>
      rw [hlookup] at hdefault
      exact absurd hdefault Bool.false_ne_true
    | some p =>
      rw [hlookup] at hdefault
      exact (eq_of_beq hdefault).symm

/-- The getters say the same of both. -/
structure Agree (u v : Uri) : Prop where
  getScheme : v.scheme = u.scheme
  getUserinfo : v.userinfo = u.userinfo
  getHost : v.host = u.host
  getPort : v.getPort = u.getPort
  getPath : v.getPath = u.getPath
  getQuery : v.query = u.query
  getFragment : v.fragment = u.fragment

/-- A `Uri` whose getters agree is printed alike, if it has the same port or none for a default
    one. -/
theorem toString_of_agree {u v : Uri} (h : Agree u v)
    (hport : v.port = if u.isDefaultPort then 0 else u.port) : v.toString = u.toString := by
  have hprinted : (if v.isDefaultPort then [] else 58 :: natText v.port) =
      if u.isDefaultPort then [] else 58 :: natText u.port := by
    cases hdefault : u.isDefaultPort with
    | true =>
      rw [hdefault, if_pos rfl] at hport
      have hv : v.isDefaultPort = true := by rw [isDefaultPort, if_pos hport]
      rw [hv, if_pos rfl, if_pos rfl]
    | false =>
      rw [hdefault, if_neg Bool.false_ne_true] at hport
      have hv : v.isDefaultPort = u.isDefaultPort := by
        rw [isDefaultPort, isDefaultPort, hport, h.getScheme]
      rw [hv, hdefault, hport]
  rw [toString, toString, hprinted, h.getScheme, h.getUserinfo, h.getHost, h.getPath, h.getQuery,
    h.getFragment]

namespace Grammatical

variable {u : Uri}

/-- A number is a port of the grammar. -/
theorem natText_mem (n : ℕ) : natText n ∈ UriGrammar.port :=
  mem_port_iff.mpr fun _ hb => of_decide_eq_true (Util.isDigit_natText hb)

/-- The port that is printed is one of the grammar. -/
theorem printed_port_mem (u : Uri) :
    ∀ p ∈ if u.isDefaultPort then none else some (natText u.port),
      p ∈ UriGrammar.port ∧ p ≠ [] := by
  split
  · exact UriParts.port_none
  · exact port_some (natText_mem u.port) (Util.natText_ne_nil u.port)

/-- The components that `toString` prints. -/
def printed (h : u.Grammatical) : UriParts where
  scheme := u.scheme
  userinfo := none
  host := u.host
  port := if u.isDefaultPort then none else some (natText u.port)
  path := u.getPath
  query := unlessEmpty u.query
  fragment := unlessEmpty u.fragment
  scheme_mem := h.scheme
  userinfo_mem := UriParts.userinfo_none
  host_mem := h.host
  port_mem := printed_port_mem u
  path_mem := getPath_mem h.path
  query_mem := mem_of_unlessEmpty h.query
  fragment_mem := mem_of_unlessEmpty h.fragment

/-- The text of a URI without user information is that of its parts. -/
theorem toString_eq_render (h : u.Grammatical) (huser : u.userinfo = []) :
    u.toString = h.printed.render := by
  have hport : prefixed 58 h.printed.port =
      if u.isDefaultPort then [] else 58 :: natText u.port := by
    show prefixed 58 (if u.isDefaultPort then none else some (natText u.port)) = _
    split
    · rfl
    · rfl
  rw [UriParts.render, UriParts.afterScheme, UriParts.afterPort, hport]
  show _ = u.scheme ++ 58 :: 47 :: 47 :: ([] ++ (u.host ++ (_ ++ (u.getPath ++
    (prefixed 63 (unlessEmpty u.query) ++ prefixed 35 (unlessEmpty u.fragment))))))
  rw [prefixed_unlessEmpty, prefixed_unlessEmpty, toString, huser]
  simp only [List.append_assoc, List.nil_append, List.cons_append, List.isEmpty_nil, if_true]

/-- The port is read back, and is 0 when it was the default. -/
theorem printed_port (h : u.Grammatical) :
    h.printed.stored.port = if u.isDefaultPort then 0 else u.port := by
  rw [UriParts.stored_port]
  show (if u.isDefaultPort then none else some (natText u.port)).elim 0 _ = _
  split
  · rfl
  · -- a port of 16 bits is not clipped
    have hlt := h.port
    rw [Option.elim_some, Util.digitsValue_natText]
    omega

/-- **What is read back.** -/
theorem printed_agrees (h : u.Grammatical) (huser : u.userinfo = []) :
    Agree u h.printed.stored := by
  obtain ⟨hs, hu, hh, hq, hf, hp⟩ := h.printed.stored_fields
  refine ⟨hs, hu.trans huser.symm, hh, ?_, getPath_of_path hp, hq.trans (unlessEmpty_getD _),
    hf.trans (unlessEmpty_getD _)⟩
  have hport := h.printed_port
  cases hdefault : u.isDefaultPort with
  | true =>
    rw [hdefault, if_pos rfl] at hport
    exact getPort_of_default hdefault hs hport
  | false =>
    rw [hdefault, if_neg Bool.false_ne_true] at hport
    rw [getPort, getPort, hport, hs]
    rfl

end Grammatical

/-- **Printing is stable.**  What `Uri::create` returns for any input, with a scheme and without a
    userinfo, is read back from its text with the same getters and the same text. -/
theorem print_stable {s : List UInt8} {u : Uri} (h : create s = .ok (some u))
    (hscheme : u.scheme ≠ []) (huser : u.userinfo = []) :
    ∃ v, create u.toString = .ok (some v) ∧ Agree u v ∧ v.toString = u.toString := by
  have hfields := create_fields h hscheme
  have hagree := hfields.printed_agrees huser
  refine ⟨hfields.printed.stored, ?_, hagree, toString_of_agree hagree hfields.printed_port⟩
  rw [hfields.toString_eq_render huser]
  exact hfields.printed.create_render

/-- `http://h:80?#` is printed as `http://h/`. -/
theorem print_stable_default_port :
    ∃ v, create (toString { scheme := [104, 116, 116, 112], host := [104], port := 80 }) =
        .ok (some v) ∧
      Agree { scheme := [104, 116, 116, 112], host := [104], port := 80 } v ∧
      v.toString = toString { scheme := [104, 116, 116, 112], host := [104], port := 80 } :=
  print_stable (s := [104, 116, 116, 112, 58, 47, 47, 104, 58, 56, 48, 63, 35])
    (by decide +kernel) (by decide) rfl

end Uri

end LoNetfw.Net
