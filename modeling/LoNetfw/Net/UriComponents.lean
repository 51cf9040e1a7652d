import LoNetfw.Net.UriRegions

namespace LoNetfw.Net

open Basis UriParser UriGrammar
open scoped Computability

/-!
# The components of a URI with an authority

What `Uri::create` stores for `scheme "://" [userinfo "@"] host [":" port] path ["?" query]
["#" fragment]`.  The components are followed from the last one to the first: a lemma about one of
them says how the machine goes on from the state before it, whatever stands behind it.

* `UriParts` — the components, each with the nonterminal it belongs to;
* `UriParts.create_render` — all fields of the `Uri` that `Uri::create` returns;
* `UriParts.extracted_iff` — when they are the components.

While the machine cannot tell a port from the rest of the userinfo, a digit behind the first colon
sets `mark` for both of them, and what the userinfo has before that digit is lost.
-/

/-! ### The components -/

/-- The components of a URI with an authority. -/
structure UriParts where
  scheme : List UInt8
  userinfo : Option (List UInt8)
  host : List UInt8
  port : Option (List UInt8)
  path : List UInt8
  query : Option (List UInt8)
  fragment : Option (List UInt8)
  scheme_mem : scheme ∈ UriGrammar.scheme
  userinfo_mem : ∀ u ∈ userinfo, u ∈ UriGrammar.userinfo
  host_mem : host ∈ UriGrammar.host
  port_mem : ∀ p ∈ port, p ∈ UriGrammar.port ∧ p ≠ []
  path_mem : path ∈ pathAbempty
  query_mem : ∀ q ∈ query, q ∈ UriGrammar.query
  fragment_mem : ∀ f ∈ fragment, f ∈ UriGrammar.fragment

/-- An optional component behind its separator. -/
def prefixed (sep : UInt8) : Option (List UInt8) → List UInt8
  | none => []
  | some w => sep :: w

/-- An optional userinfo with the `@` behind it. -/
def atSuffixed : Option (List UInt8) → List UInt8
  | none => []
  | some u => u ++ [64]

namespace UriParts

/-- What follows the port. -/
def afterPort (c : UriParts) : List UInt8 :=
  c.path ++ (prefixed 63 c.query ++ prefixed 35 c.fragment)

/-- What follows the scheme and `://`. -/
def afterScheme (c : UriParts) : List UInt8 :=
  atSuffixed c.userinfo ++ (c.host ++ (prefixed 58 c.port ++ c.afterPort))

/-- The whole URI. -/
def render (c : UriParts) : List UInt8 := c.scheme ++ 58 :: 47 :: 47 :: c.afterScheme

/-- What is stored of a userinfo: a digit behind the first colon begins it anew. -/
def keptUserinfo (u : List UInt8) : List UInt8 :=
  match u.dropWhile (· != 58) with
  | _ :: d :: t => if digit.has d then d :: t else u
  | _ => u

end UriParts

namespace UriParser

/-! ### Query and fragment -/

/-- The machine ends in a final state with these fields. -/
def Yields (r : Except Fault Exec) (u : Uri) : Prop :=
  ∃ x, r = .ok x ∧ x.uri = u ∧ firstFinal ≤ x.cs

/-- The fields with an optional query or fragment stored. -/
def withQuery (u : Uri) : Option (List UInt8) → Uri
  | none => u
  | some q => { u with query := q }

def withFragment (u : Uri) : Option (List UInt8) → Uri
  | none => u
  | some f => { u with fragment := f }

/-- The end of the input in a final state. -/
theorem yields_nil {q : ℕ} {mark : Option (List UInt8)} {uri : Uri} {y : Exec}
    (hfin : firstFinal ≤ q) (h : runActions [] ⟨q, mark, uri⟩ (eofActions q) = .ok y)
    (hcs : y.cs = q) : Yields (exec ⟨q, mark, uri⟩ []) y.uri :=
  ⟨y, by rw [exec, h], rfl, by rw [hcs]; exact hfin⟩

/-- Between a mark and itself there is no text. -/
theorem text_self (p : List UInt8) : text (some p) p = .ok [] := by
  have h := text_append [] p
  exact h

/-- From the `#` on. -/
theorem yields_fragment {f : List UInt8} (hf : f ∈ fragment) (mark : Option (List UInt8))
    (uri : Uri) : Yields (exec ⟨453, mark, uri⟩ f) { uri with fragment := f } := by
  -- the empty fragment is stored by the action at the end of the text
  by_cases hne : f = []
  · subst hne
    refine yields_nil (by decide)
      (y := ⟨453, none, { uri with fragment := [] }⟩) ?_ rfl
    rw [loop_states.fragmentEof.1]
    rfl
  · have hrun := exec_enterLoop loop_states.fragment.2 loop_states.fragment.1 (w := f)
      (by rw [← query_eq]; exact hf) hne mark uri []
    rw [List.append_nil] at hrun
    rw [hrun]
    refine yields_nil (by decide)
      (y := ⟨454, none, { uri with fragment := f }⟩) ?_ rfl
    have htext := text_append f []
    rw [List.append_nil] at htext
    rw [loop_states.fragmentEof.2, runActions, runAction, htext]
    rfl

/-- A component that ends before the fragment. -/
theorem yields_beforeFragment {q : ℕ} {as : List Action} (h : EndsQuery q as)
    {f : Option (List UInt8)} (hf : ∀ w ∈ f, w ∈ fragment) {mark : Option (List UInt8)}
    {uri : Uri} {y : Exec} (hcs : y.cs = q)
    (hx : runActions (prefixed 35 f) ⟨q, mark, uri⟩ as = .ok y) :
    Yields (exec ⟨q, mark, uri⟩ (prefixed 35 f)) (withFragment y.uri f) := by
  cases f with
  | none => exact yields_nil h.2.2 (by rw [h.2.1]; exact hx) hcs
  | some f =>
    show Yields (exec _ (35 :: f)) _
    rw [exec_cons (x := ⟨q, mark, uri⟩) h.1 (by decide) hx]
    exact yields_fragment (hf f rfl) ..

/-- From the `?` on. -/
theorem yields_query {w : List UInt8} (hw : w ∈ query) {f : Option (List UInt8)}
    (hf : ∀ w ∈ f, w ∈ fragment) (mark : Option (List UInt8)) (uri : Uri) :
    Yields (exec ⟨456, mark, uri⟩ (w ++ prefixed 35 f))
      (withFragment { uri with query := w } f) := by
  by_cases hne : w = []
  · subst hne
    refine yields_beforeFragment loop_states.queryEnds.1 hf
      (y := ⟨456, none, { uri with query := [] }⟩) rfl ?_
    rw [runActions_mark, runActions, runAction, text_self]
    rfl
  · rw [exec_enterLoop loop_states.query.2 loop_states.query.1 (by rw [← query_eq]; exact hw) hne mark uri]
    refine yields_beforeFragment loop_states.queryEnds.2 hf
      (y := ⟨457, none, { uri with query := w }⟩) rfl ?_
    rw [runActions, runAction, text_append]
    rfl

/-! ### Path -/

/-- What follows a path is stored as query and fragment. -/
theorem yields_beforeQuery {q : ℕ} {as : List Action} (h : EndsPath q as)
    {w f : Option (List UInt8)} (hw : ∀ v ∈ w, v ∈ query) (hf : ∀ v ∈ f, v ∈ fragment)
    {mark : Option (List UInt8)} {uri : Uri} {y : Exec} (hcs : y.cs = q)
    (hx : runActions (prefixed 63 w ++ prefixed 35 f) ⟨q, mark, uri⟩ as = .ok y) :
    Yields (exec ⟨q, mark, uri⟩ (prefixed 63 w ++ prefixed 35 f))
      (withFragment (withQuery y.uri w) f) := by
  cases w with
  | none => exact yields_beforeFragment h.2 hf hcs hx
  | some w =>
    rw [prefixed, List.cons_append] at hx ⊢
    rw [exec_cons (x := ⟨q, mark, uri⟩) h.1 (by decide) hx]
    exact yields_query (hw w rfl) hf ..

/-- Segments behind the first slash. -/
theorem segments_le : UriGrammar.segment * pathAbempty ≤ (pathChar.lang + pctEncoded)∗ := by
  have hchar : pchars ≤ pathChar.lang + pctEncoded := by
    rw [pchars_eq, lang_pathChar]
    exact add_le_add (le_add_of_nonneg_right bot_le) le_rfl
  -- a slash is a byte of the loop as any other, so a path is one run of it
  have hslash : slash.lang ≤ pathChar.lang + pctEncoded := by
    rw [lang_pathChar, add_right_comm]
    exact le_add_of_nonneg_left bot_le
  have hseg : UriGrammar.segment ≤ (pathChar.lang + pctEncoded)∗ := kstar_mono hchar
  have hone : slash.lang * UriGrammar.segment ≤ (pathChar.lang + pctEncoded)∗ := by
    calc slash.lang * UriGrammar.segment
        ≤ (pathChar.lang + pctEncoded)∗ * (pathChar.lang + pctEncoded)∗ :=
          mul_le_mul' (hslash.trans le_kstar) hseg
      _ = (pathChar.lang + pctEncoded)∗ := kstar_mul_kstar _
  calc UriGrammar.segment * pathAbempty
      ≤ (pathChar.lang + pctEncoded)∗ * ((pathChar.lang + pctEncoded)∗)∗ := by
        rw [pathAbempty_eq]
        exact mul_le_mul' hseg (kstar_mono hone)
    _ = (pathChar.lang + pctEncoded)∗ := by rw [kstar_idem, kstar_mul_kstar]

/-- A path is empty or starts with a slash. -/
theorem mem_pathAbempty {w : List UInt8} (hw : w ∈ pathAbempty) :
    w = [] ∨ ∃ t, w = 47 :: t ∧ t ∈ (pathChar.lang + pctEncoded)∗ := by
  have hunfold := Item.pathAbempty_unfold 1
  rw [mul_one] at hunfold
  rw [hunfold] at hw
  rcases hw with ⟨_, ⟨b, hb, rfl⟩, t, ht, rfl⟩ | hw
  · obtain rfl : b = 47 := CharClass.eq_of_has_single hb
    exact .inr ⟨t, rfl, segments_le ht⟩
  · exact .inl hw

/-- Actions in two parts. -/
theorem runActions_append {p : List UInt8} {x y : Exec} {as bs : List Action}
    (h : runActions p x as = .ok y) : runActions p x (as ++ bs) = runActions p y bs := by
  induction as generalizing x with
  | nil =>
    obtain rfl : x = y := Except.ok.inj h
    rfl
  | cons a as ih =>
    rw [runActions] at h
    rw [List.cons_append, runActions]
    cases ha : runAction p x a with
    | error e =>
      rw [ha] at h
      cases h
    | ok y =>
      rw [ha] at h
      exact ih h

/-- From the path on. -/
theorem yields_path {q : ℕ} {as : List Action} (h : StartsPath q as) {p : List UInt8}
    (hp : p ∈ pathAbempty) {w f : Option (List UInt8)} (hw : ∀ v ∈ w, v ∈ query)
    (hf : ∀ v ∈ f, v ∈ fragment) {mark : Option (List UInt8)} {uri uri' : Uri}
    (hx : runActions (p ++ (prefixed 63 w ++ prefixed 35 f)) ⟨q, mark, uri⟩ as =
      .ok ⟨q, some (p ++ (prefixed 63 w ++ prefixed 35 f)), uri'⟩) :
    Yields (exec ⟨q, mark, uri⟩ (p ++ (prefixed 63 w ++ prefixed 35 f)))
      (withFragment (withQuery { uri' with path := p } w) f) := by
  -- without a path the byte behind the authority, or the end, stores the empty one
  rcases mem_pathAbempty hp with rfl | ⟨t, rfl, ht⟩
  · refine yields_beforeQuery h.2 hw hf (y := ⟨q, none, { uri' with path := [] }⟩) rfl ?_
    refine (runActions_append hx).trans ?_
    rw [List.nil_append, runActions, runAction, text_self]
    rfl
  · rw [List.cons_append] at hx ⊢
    rw [exec_cons (x := ⟨q, mark, uri⟩) h.1 (by decide) hx]
    show Yields (exec ⟨513, some (47 :: (t ++ _)), uri'⟩ _) _
    -- from the slash on the path loop takes every byte
    rw [exec_loop loop_states.path ht]
    refine yields_beforeQuery loop_states.pathEnds hw hf
      (y := ⟨513, none, { uri' with path := 47 :: t }⟩) rfl ?_
    rw [runActions, runAction, ← List.cons_append, text_append]
    rfl

end UriParser

/-! ### Port -/

namespace UriParts

/-- The port that is stored: what `atoi` reads from its first digit on. -/
def withPort (c : UriParts) (u : Uri) : Uri :=
  match c.port with
  | none => u
  | some d => u.setPort (atoi (d ++ c.afterPort))

/-- The fields with everything behind the host stored. -/
def withRest (c : UriParts) (u : Uri) : Uri :=
  withFragment (withQuery { c.withPort u with path := c.path } c.query) c.fragment

end UriParts

namespace UriParser

/-- A port has digits only. -/
theorem within_port : CharClass.Within digit port :=
  CharClass.Within.kstar (CharClass.within_lang (Nat.and_self _))

/-- At the last digit of a port. -/
theorem yields_portEnd {q : ℕ} (hq : StartsPath q [.savePort, .mark]) (c : UriParts)
    {d : List UInt8} (hne : d ≠ []) (uri : Uri) :
    Yields (exec ⟨q, some (d ++ c.afterPort), uri⟩ c.afterPort)
      (withFragment (withQuery { uri.setPort (atoi (d ++ c.afterPort)) with path := c.path }
        c.query) c.fragment) := by
  refine yields_path hq c.path_mem c.query_mem c.fragment_mem ?_
  have hmark : some (d ++ c.afterPort) ≠ some c.afterPort := by
    intro h
    exact hne (List.append_left_eq_self.mp (Option.some.inj h))
  show runActions c.afterPort ⟨q, some (d ++ c.afterPort), uri⟩ [.savePort, .mark] = _
  rw [runActions, runAction, if_neg hmark]
  rfl

/-- From the first digit of a port on. -/
theorem yields_port {q : ℕ} (hq : q = 514 ∨ q = 521) (c : UriParts) {d : List UInt8}
    (hd : d ∈ port) (hne : d ≠ []) (mark : Option (List UInt8)) (uri : Uri) :
    Yields (exec ⟨q, mark, uri⟩ (d ++ c.afterPort))
      (withFragment (withQuery { uri.setPort (atoi (d ++ c.afterPort)) with path := c.path }
        c.query) c.fragment) := by
  -- the first digit sets the mark
  obtain ⟨b, t, rfl⟩ := List.exists_cons_of_ne_nil hne
  have hb : digit.has b = true := within_port _ hd b List.mem_cons_self
  have ht : ∀ x ∈ t, digit.has x = true := fun x hx =>
    within_port _ hd x (List.mem_cons_of_mem _ hx)
  obtain ⟨h514, h521⟩ := port_states.entered
  obtain ⟨h515, h542⟩ := port_states.loop
  rw [List.cons_append]
  -- behind an at sign, or where the host may still turn out to be a userinfo
  rcases hq with rfl | rfl
  · rw [exec_cons_mark (x := ⟨514, mark, uri⟩) (jump_eq h514 hb) (by decide),
      exec_class h515 (by decide) ht, ← List.cons_append]
    exact yields_portEnd port_states.ends.1 c hne uri
  · rw [exec_cons_mark (x := ⟨521, mark, uri⟩) (jump_eq h521 hb) (by decide),
      exec_class h542 (by decide) ht, ← List.cons_append]
    exact yields_portEnd port_states.ends.2 c hne uri

/-! ### Host -/

/-- Behind the host. -/
theorem yields_afterHost {q : ℕ} {as bs : List Action} (h : EndsHost q as bs) (c : UriParts)
    {mark : Option (List UInt8)} {uri uri' : Uri} {m : List UInt8}
    (has : runActions (prefixed 58 c.port ++ c.afterPort) ⟨q, mark, uri⟩ as =
      .ok ⟨q, some (prefixed 58 c.port ++ c.afterPort), uri'⟩)
    (hbs : runActions (prefixed 58 c.port ++ c.afterPort) ⟨q, mark, uri⟩ bs =
      .ok ⟨q, some m, uri'⟩) :
    Yields (exec ⟨q, mark, uri⟩ (prefixed 58 c.port ++ c.afterPort)) (c.withRest uri') := by
  rw [UriParts.withRest, UriParts.withPort]
  cases hport : c.port with
  -- the path's first byte stores the host
  | none =>
    rw [hport] at has
    exact yields_path h.1 c.path_mem c.query_mem c.fragment_mem has
  | some d =>
    rw [hport, prefixed, List.cons_append] at hbs
    obtain ⟨hd, hne⟩ := c.port_mem d hport
    rw [prefixed, List.cons_append]
    -- the colon stores the host
    rcases h.2 with h58 | h58
    · rw [exec_cons (x := ⟨q, mark, uri⟩) h58 (by decide) hbs]
      exact yields_port (.inl rfl) c hd hne ..
    · rw [exec_cons (x := ⟨q, mark, uri⟩) h58 (by decide) hbs]
      exact yields_port (.inr rfl) c hd hne ..

/-- A colon may stand without a port. -/
theorem colon_mem_emptyPort : [58] ∈ Item.emptyPort := by
  have hnil : [] ∈ pathAbempty * Item.pathEnd := by
    refine Language.mem_mul.mpr ⟨[], ?_, [], mem_pathEnd.mpr (.inl rfl), rfl⟩
    rw [pathAbempty_eq]
    exact Language.nil_mem_kstar _
  exact CharClass.cons_mem_mul.mpr ⟨by decide, hnil⟩

/-- Behind a host an empty port may come, so the machine is not stuck in it. -/
theorem accepts_host {q : ℕ} (hq : q = 511 ∨ q = 522) {w : List UInt8} (hw : w ∈ host) :
    configs.accepts (some (q, false)) (w ++ [58]) = true := by
  have hmem : ∃ i ∈ Item.hostStart, w ++ [58] ∈ Item.lang i := by
    have hsum := Language.append_mem_mul hw colon_mem_emptyPort
    rw [Item.host_eq, Equations.mem_list_sum] at hsum
    obtain ⟨l, hl, hmem⟩ := hsum
    obtain ⟨i, hi, rfl⟩ := List.mem_map.mp hl
    exact ⟨i, hi, hmem⟩
  obtain ⟨i, hi, hmem⟩ := hmem
  rcases hq with rfl | rfl
  · rw [configs_accepts start_labels.2.1.1, start_labels.2.1.2]
    exact ⟨i, List.mem_cons_of_mem _ hi, hmem⟩
  · rw [configs_accepts start_labels.2.2.1.1, start_labels.2.2.1.2]
    exact ⟨i, hi, hmem⟩

/-- The two parts of a name stay in a class with their bytes. -/
theorem within_name {c : CharClass} (hname : c &&& nameChar = nameChar)
    (hpct : c &&& percent = percent) : CharClass.Within c (nameChar.lang + pctEncoded) := by
  have hx : c &&& xdigit = xdigit := by
    -- a hexadecimal digit is a character of a name
    have h : nameChar &&& xdigit = xdigit := by decide
    rw [← h, ← Nat.land_assoc, hname]
  refine .add (CharClass.within_lang hname) (.mul (.mul ?_ ?_) ?_)
  · exact CharClass.within_lang hpct
  · exact CharClass.within_lang hx
  · exact CharClass.within_lang hx

/-- An octet has digits, and the byte 2. -/
theorem within_decOctet {c : CharClass} (hd : c &&& digit = digit)
    (h2 : c &&& byteTwo = byteTwo) : CharClass.Within c decOctet := by
  have hsub : ∀ d : CharClass, digit &&& d = d → CharClass.Within c d.lang := by
    intro d h
    refine CharClass.within_lang ?_
    rw [← h, ← Nat.land_assoc, hd]
  have hdigit := CharClass.within_lang hd
  refine .add (.add (.add (.add hdigit ?_) ?_) ?_) ?_
  · exact .mul (hsub _ (by decide)) hdigit
  · exact .mul (hsub _ (by decide)) (.pow hdigit 2)
  · exact .mul (.mul (CharClass.within_lang h2) (hsub _ (by decide))) hdigit
  · exact .mul (.mul (hsub _ (by decide)) (hsub _ (by decide))) (hsub _ (by decide))

/-- An IPv4 address has dots besides. -/
theorem within_ipv4address {c : CharClass} (hd : c &&& digit = digit)
    (h2 : c &&& byteTwo = byteTwo) (hdot : c &&& dot = dot) :
    CharClass.Within c ipv4address := by
  have ho := within_decOctet hd h2
  have hp := CharClass.within_lang hdot
  exact .mul (.mul (.mul (.mul (.mul (.mul ho hp) ho) hp) ho) hp) ho

/-- A name has none of the bytes that end a host. -/
theorem within_regName : CharClass.Within hostBytes regName := by
  rw [regName_eq]
  exact .kstar (within_name (by decide) (by decide))

/-- The address in an IP literal has no closing bracket. -/
theorem within_ip : CharClass.Within ipBytes (ipv6address + ipvFuture) := by
  have hx : CharClass.Within ipBytes xdigit.lang := CharClass.within_lang (by decide)
  have hc : CharClass.Within ipBytes colon.lang := CharClass.within_lang (by decide)
  have hh : CharClass.Within ipBytes h16 := .add (.add (.add hx (.pow hx 2)) (.pow hx 3)) (.pow hx 4)
  have hls : CharClass.Within ipBytes ls32 :=
    .add (.mul (.mul hh hc) hh) (within_ipv4address (by decide) (by decide) (by decide))
  have hg : ∀ n, CharClass.Within ipBytes ((h16 * colon.lang) ^ n) := fun n => .pow (.mul hh hc) n
  have hdc : CharClass.Within ipBytes doubleColon := .mul hc hc
  have hopt : ∀ {L}, CharClass.Within ipBytes L → CharClass.Within ipBytes (opt L) :=
    fun h => .add (CharClass.within_one _) h
  have hpre : ∀ n, CharClass.Within ipBytes (opt ((h16 * colon.lang) ^ n * h16)) :=
    fun n => hopt (.mul (hg n) hh)
  have hplus : ∀ {L}, CharClass.Within ipBytes L → CharClass.Within ipBytes (plus L) :=
    fun h => .mul h (.kstar h)
  have huc : CharClass.Within ipBytes (unreserved + subDelims + colon.lang) := by
    rw [← lang_userinfoChar]
    exact CharClass.within_lang (by decide)
  -- one line for each alternative of the rule
  refine .add (.add (.add (.add (.add (.add (.add (.add (.add ?_ ?_) ?_) ?_) ?_) ?_) ?_) ?_) ?_) ?_
  · exact .mul (hg 6) hls
  · exact .mul (.mul hdc (hg 5)) hls
  · exact .mul (.mul (.mul (hopt hh) hdc) (hg 4)) hls
  · exact .mul (.mul (.mul (hpre 1) hdc) (hg 3)) hls
  · exact .mul (.mul (.mul (hpre 2) hdc) (hg 2)) hls
  · exact .mul (.mul (.mul (hpre 3) hdc) (hg 1)) hls
  · exact .mul (.mul (hpre 4) hdc) hls
  · exact .mul (.mul (hpre 5) hdc) hh
  · exact .mul (hpre 6) hdc
  · exact .mul (.mul (.mul (CharClass.within_lang (by decide)) (hplus hx))
      (CharClass.within_lang (by decide))) (hplus huc)

/-- At the end of a host the machine has come through. -/
theorem yields_hostEnd {q : ℕ} (h : EndsHost q [.saveHost, .mark] [.saveHost]) (c : UriParts)
    (uri : Uri) :
    Yields (exec ⟨q, some (c.host ++ (prefixed 58 c.port ++ c.afterPort)), uri⟩
      (prefixed 58 c.port ++ c.afterPort)) (c.withRest { uri with host := c.host }) := by
  have hsave : ∀ as, runActions (prefixed 58 c.port ++ c.afterPort)
      ⟨q, some (c.host ++ (prefixed 58 c.port ++ c.afterPort)), uri⟩ (.saveHost :: as) =
        runActions (prefixed 58 c.port ++ c.afterPort)
          ⟨q, some (c.host ++ (prefixed 58 c.port ++ c.afterPort)),
            { uri with host := c.host }⟩ as := by
    intro as
    rw [runActions, runAction, if_neg (Option.some_ne_none _), text_append]
    rfl
  exact yields_afterHost h c (hsave [.mark]) (hsave [])

/-- From the host on. -/
theorem yields_host {q : ℕ} (hq : q = 511 ∨ q = 522) (c : UriParts)
    (mark : Option (List UInt8)) (uri : Uri) :
    Yields (exec ⟨q, mark, uri⟩ (c.host ++ (prefixed 58 c.port ++ c.afterPort)))
      (c.withRest { uri with host := c.host }) := by
  have hacc := accepts_host hq c.host_mem
  have hq₀ : q ∈ [511, 522] := by simpa using hq
  have hname : (∀ b ∈ c.host, hostBytes.has b = true) →
      Yields (exec ⟨q, mark, uri⟩ (c.host ++ (prefixed 58 c.port ++ c.afterPort)))
        (c.withRest { uri with host := c.host }) := by
    intro hbytes
    cases hh : c.host with
    | nil =>
      have hsave : runActions (prefixed 58 c.port ++ c.afterPort) ⟨q, mark, uri⟩
          [.mark, .saveHost] = .ok ⟨q, some (prefixed 58 c.port ++ c.afterPort),
            { uri with host := [] }⟩ := by
        rw [runActions_mark, runActions, runAction, if_neg (Option.some_ne_none _), text_self]
        rfl
      exact yields_afterHost (host_states.emptyEnds q hq₀) c hsave hsave
    | cons b w =>
      rw [hh] at hacc hbytes
      obtain ⟨q', hq', hv, hrun⟩ := exec_enter (host_states.nameEntered q hq₀) host_states.names
        (hbytes b List.mem_cons_self) (fun x hx => hbytes x (List.mem_cons_of_mem _ hx)) hacc
      obtain ⟨_, hend, _⟩ := exit_of_accepts host_states.nameEnds hq' (by decide) hv
      have hyields := yields_hostEnd (of_decide_eq_true hend) c uri
      rw [hh] at hyields
      rw [List.cons_append, hrun]
      exact hyields
  -- only a literal leaves the states of the names
  rcases c.host_mem with (hlit | hv4) | hreg
  · obtain ⟨_, ⟨_, ⟨b, hb, rfl⟩, w, hw, rfl⟩, _, ⟨b', hb', rfl⟩, hhost⟩ := hlit
    have hhost : c.host = b :: (w ++ [b']) := hhost.symm
    rw [hhost, List.cons_append, List.append_assoc] at hacc
    obtain ⟨q', hq', hv, hrun⟩ :=
      exec_enter (host_states.literalEntered q hq₀) host_states.literals hb (within_ip w hw) hacc
    obtain ⟨e, he, hj⟩ := exit_of_accepts host_states.literalLeft hq' hb' hv
    rw [of_decide_eq_true he] at hj
    have hyields := yields_hostEnd host_states.literalEnds c uri
    rw [hhost, List.cons_append, List.append_assoc] at hyields
    rw [hhost, List.cons_append, List.append_assoc, hrun, List.cons_append, List.nil_append,
      exec_cons_st (x := ⟨q', _, uri⟩) hj (by decide)]
    exact hyields
  · exact hname (within_ipv4address (by decide) (by decide) (by decide) _ hv4)
  · exact hname (within_regName _ hreg)

/-! ### Userinfo -/

/-- User information has no `@` in it. -/
theorem within_userinfo : CharClass.Within (userinfoChar ||| percent) userinfo := by
  have hpct : CharClass.Within (userinfoChar ||| percent) pctEncoded := by
    refine .mul (.mul ?_ ?_) ?_
    · exact CharClass.within_lang (by decide)
    · exact CharClass.within_lang (by decide)
    · exact CharClass.within_lang (by decide)
  rw [userinfo_eq]
  exact .kstar (.add (CharClass.within_lang (by decide)) hpct)

/-- Behind a userinfo an empty host with an empty port may come. -/
theorem accepts_userinfo {u : List UInt8} (hu : u ∈ userinfo) :
    configs.accepts (some (511, false)) (u ++ [64, 58]) = true := by
  rw [configs_accepts start_labels.2.1.1, start_labels.2.1.2]
  refine ⟨.ui 0, List.mem_cons_self, ?_⟩
  have hlang : Item.lang (.ui 0) = userinfo * (atSign.lang * (host * Item.emptyPort)) :=
    one_mul _
  rw [hlang]
  have hnil : [] ∈ host := .inr (Language.nil_mem_kstar _)
  refine Language.append_mem_mul hu (CharClass.cons_mem_mul.mpr ⟨by decide, ?_⟩)
  exact Language.mem_mul.mpr ⟨[], hnil, [58], colon_mem_emptyPort, rfl⟩

/-- Storing the userinfo. -/
theorem exec_saveUserinfo {q : ℕ} (hj : jump q 64 = ⟨[.saveUserinfo], 522⟩) (w : List UInt8)
    (uri : Uri) (rest : List UInt8) :
    exec ⟨q, some (w ++ 64 :: rest), uri⟩ (64 :: rest) =
      exec ⟨522, none, { uri with userinfo := w }⟩ rest := by
  refine exec_cons (x := ⟨q, some (w ++ 64 :: rest), uri⟩) hj (by decide)
    (y := ⟨q, none, { uri with userinfo := w }⟩) ?_
  rw [runActions, runAction, if_neg (Option.some_ne_none _), text_append]
  rfl

/-- In a userinfo behind its first colon, up to the `@`. -/
theorem exec_userinfoRest {q : ℕ} (hq : Nat.testBit userinfoStates q = true) {t : List UInt8}
    (ht : ∀ b ∈ t, (userinfoChar ||| percent).has b = true)
    (hv : configs.accepts (some (q, true)) (t ++ [64, 58]) = true) (w : List UInt8) (uri : Uri)
    (rest : List UInt8) :
    exec ⟨q, some (w ++ 64 :: rest), uri⟩ (t ++ 64 :: rest) =
      exec ⟨522, none, { uri with userinfo := w }⟩ rest := by
  obtain ⟨q', hq', hv', hrun⟩ := exec_quiet userinfo_states.userinfo ht hq hv
  obtain ⟨e, he, hj⟩ := exit_of_accepts userinfo_states.userinfoAt hq' (by decide) hv'
  rw [of_decide_eq_true he] at hj
  rw [hrun, exec_saveUserinfo hj]

/-- Behind the first colon a digit sets the mark anew: `markh` of the port that may come. -/
theorem exec_afterColon_digit {d : UInt8} {t : List UInt8} (hd : digit.has d = true)
    (ht : ∀ b ∈ t, (userinfoChar ||| percent).has b = true)
    (hv : configs.accepts (some (521, true)) (d :: t ++ [64, 58]) = true)
    (mark : Option (List UInt8)) (uri : Uri) (rest : List UInt8) :
    exec ⟨521, mark, uri⟩ (d :: t ++ 64 :: rest) =
      exec ⟨522, none, { uri with userinfo := d :: t }⟩ rest := by
  have hj := jump_eq port_states.entered.2 hd
  have hv' := accepts_cons (j := ⟨[.mark], 542⟩) hv hj rfl
  rw [List.cons_append, exec_cons_mark (x := ⟨521, mark, uri⟩) hj (by decide),
    ← List.cons_append, exec_userinfoRest userinfo_states.members.2.2 ht hv']

/-- Behind the first colon anything else keeps the mark at the beginning of the userinfo. -/
theorem exec_afterColon_other {t : List UInt8}
    (ht : ∀ b ∈ t, (userinfoChar ||| percent).has b = true)
    (hd : ∀ d ∈ t.head?, digit.has d = false)
    (hv : configs.accepts (some (521, true)) (t ++ [64, 58]) = true) (w : List UInt8) (uri : Uri)
    (rest : List UInt8) :
    exec ⟨521, some (w ++ 64 :: rest), uri⟩ (t ++ 64 :: rest) =
      exec ⟨522, none, { uri with userinfo := w }⟩ rest := by
  obtain ⟨hno, hpct⟩ := userinfo_states.afterColon
  obtain ⟨h255, h256, -⟩ := userinfo_states.members
  cases t with
  | nil => exact exec_saveUserinfo userinfo_states.afterColonAt w uri rest
  | cons d t =>
    have hdt := ht d List.mem_cons_self
    -- the byte is no digit, so the machine is in the userinfo and in nothing else
    have hj : ∃ q, jump 521 d = st q ∧ q ≠ error ∧ Nat.testBit userinfoStates q = true := by
      have hsplit : userinfoNoDigit ||| percent ||| digit = userinfoChar ||| percent := by decide
      rw [← hsplit, CharClass.has_or, CharClass.has_or, hd d rfl, Bool.or_false,
        Bool.or_eq_true] at hdt
      rcases hdt with hdt | hdt
      · exact ⟨255, jump_eq hno hdt, by decide, h255⟩
      · exact ⟨256, jump_eq hpct hdt, by decide, h256⟩
    obtain ⟨q, hj, hq0, hq⟩ := hj
    have hv' := accepts_cons (j := st q) hv hj rfl
    rw [List.cons_append, exec_cons_st (x := ⟨521, _, uri⟩) hj hq0]
    exact exec_userinfoRest hq (fun b hb => ht b (List.mem_cons_of_mem _ hb)) hv' w uri rest

/-- A userinfo splits at its first colon. -/
theorem split_colon (u : List UInt8) : (∀ b ∈ u, b ≠ 58) ∨
    ∃ a t, u = a ++ 58 :: t ∧ ∀ b ∈ a, b ≠ 58 := by
  induction u with
  | nil => exact .inl fun b hb => absurd hb List.not_mem_nil
  | cons b u ih =>
    by_cases hb : b = 58
    · exact .inr ⟨[], u, by rw [hb]; rfl, fun b hb => absurd hb List.not_mem_nil⟩
    · rcases ih with h | ⟨a, t, rfl, h⟩
      · exact .inl (List.forall_mem_cons.mpr ⟨hb, h⟩)
      · exact .inr ⟨b :: a, t, rfl, List.forall_mem_cons.mpr ⟨hb, h⟩⟩

/-- The search for a colon passes over a part without one. -/
theorem dropWhile_colon {a : List UInt8} (h : ∀ b ∈ a, b ≠ 58) (t : List UInt8) :
    (a ++ t).dropWhile (· != 58) = t.dropWhile (· != 58) :=
  List.dropWhile_append_of_pos fun b hb => bne_iff_ne.mpr (h b hb)

/-- User information without a colon is kept. -/
theorem keptUserinfo_noColon {u : List UInt8} (h : ∀ b ∈ u, b ≠ 58) :
    UriParts.keptUserinfo u = u := by
  have hdrop := dropWhile_colon h []
  rw [List.append_nil] at hdrop
  rw [UriParts.keptUserinfo, hdrop]
  rfl

/-- With a colon, what follows is taken for a port when it begins with a digit. -/
theorem keptUserinfo_colon {a : List UInt8} (h : ∀ b ∈ a, b ≠ 58) (t : List UInt8) :
    UriParts.keptUserinfo (a ++ 58 :: t) = match t with
      | d :: t' => if digit.has d then d :: t' else a ++ 58 :: t
      | [] => a ++ 58 :: t := by
  rw [UriParts.keptUserinfo, dropWhile_colon h]
  cases t with
  | nil => rfl
  | cons d t => rfl

/-- At the first colon of a userinfo. -/
theorem exec_atColon {a t : List UInt8} (ha : ∀ b ∈ a, b ≠ 58)
    (ht : ∀ b ∈ t, (userinfoChar ||| percent).has b = true)
    (hv : configs.accepts (some (521, true)) (t ++ [64, 58]) = true) (uri : Uri)
    (rest : List UInt8) :
    exec ⟨521, some (a ++ 58 :: t ++ 64 :: rest), uri⟩ (t ++ 64 :: rest) =
      exec ⟨522, none, { uri with userinfo := UriParts.keptUserinfo (a ++ 58 :: t) }⟩ rest := by
  rw [keptUserinfo_colon ha]
  cases t with
  | nil => exact exec_afterColon_other ht (fun d hd => nomatch hd) hv _ uri rest
  | cons d t =>
    by_cases hd : digit.has d = true
    -- `markh` of the port runs on a digit
    · rw [exec_afterColon_digit hd (fun b hb => ht b (List.mem_cons_of_mem _ hb)) hv]
      show _ = exec ⟨522, none, { uri with userinfo := if digit.has d then _ else _ }⟩ rest
      rw [if_pos hd]
    · have hhead : ∀ x ∈ (d :: t).head?, digit.has x = false := by
        rintro x hx
        obtain rfl : d = x := Option.some.inj hx
        exact Bool.eq_false_iff.mpr hd
      rw [exec_afterColon_other ht hhead hv]
      show _ = exec ⟨522, none, { uri with userinfo := if digit.has d then _ else _ }⟩ rest
      rw [if_neg hd]

/-- What a userinfo has before a colon may be a host as well. -/
theorem within_name_of_noColon {a : List UInt8} (hbytes : ∀ b ∈ a, (userinfoChar ||| percent).has b = true)
    (ha : ∀ b ∈ a, b ≠ 58) : ∀ b ∈ a, (nameChar ||| percent).has b = true := by
  intro b hmem
  have hsplit : nameChar ||| percent ||| colon = userinfoChar ||| percent := by decide
  have hb := hbytes b hmem
  rw [← hsplit, CharClass.has_or, Bool.or_eq_true] at hb
  exact hb.resolve_right fun hc => ha b hmem (CharClass.eq_of_has_single hc)

/-- A userinfo without a colon. -/
theorem exec_userinfo_noColon {u : List UInt8} (hname : ∀ b ∈ u, (nameChar ||| percent).has b = true)
    (hv : configs.accepts (some (511, false)) (u ++ [64, 58]) = true) (mark : Option (List UInt8))
    (uri : Uri) (rest : List UInt8) :
    exec ⟨511, mark, uri⟩ (u ++ 64 :: rest) =
      exec ⟨522, none, { uri with userinfo := u }⟩ rest := by
  cases u with
  -- the at sign sets the mark and stores the empty userinfo
  | nil =>
    refine exec_cons (x := ⟨511, mark, uri⟩) userinfo_states.emptyAt (by decide)
      (y := ⟨511, none, { uri with userinfo := [] }⟩) ?_
    rw [runActions_mark, runActions, runAction, if_neg (Option.some_ne_none _), text_self]
    rfl
  | cons b w =>
    obtain ⟨q, hq, hv', hrun⟩ := exec_enter userinfo_states.eitherEntered userinfo_states.either
      (hname b List.mem_cons_self) (fun x hx => hname x (List.mem_cons_of_mem _ hx)) hv
    obtain ⟨e, he, hj⟩ := exit_of_accepts userinfo_states.eitherAt hq (by decide) hv'
    rw [of_decide_eq_true he] at hj
    rw [List.cons_append, hrun]
    exact exec_saveUserinfo hj (b :: w) uri rest

/-- Up to the first colon, where what was read is stored as a host. -/
theorem exec_toColon {a v : List UInt8} (hname : ∀ b ∈ a, (nameChar ||| percent).has b = true)
    (hv : configs.accepts (some (511, false)) (a ++ 58 :: v) = true) :
    configs.accepts (some (521, true)) v = true ∧
      ∀ (mark : Option (List UInt8)) (uri : Uri) (rest : List UInt8),
        exec ⟨511, mark, uri⟩ (a ++ 58 :: rest) =
          exec ⟨521, some (a ++ 58 :: rest), { uri with host := a }⟩ rest := by
  cases a with
  -- the colon sets the mark and stores the empty host
  | nil =>
    refine ⟨accepts_cons (j := ⟨[.mark, .saveHost], 521⟩) hv userinfo_states.emptyColon rfl,
      fun mark uri rest => ?_⟩
    refine exec_cons (x := ⟨511, mark, uri⟩) userinfo_states.emptyColon (by decide)
      (y := ⟨511, some (58 :: rest), { uri with host := [] }⟩) ?_
    rw [runActions_mark, runActions, runAction, if_neg (Option.some_ne_none _), text_self]
    rfl
  | cons b w =>
    obtain ⟨q, hq, hv', hrun⟩ := exec_enter userinfo_states.eitherEntered userinfo_states.either
      (hname b List.mem_cons_self) (fun x hx => hname x (List.mem_cons_of_mem _ hx)) hv
    -- wherever the name has led, the colon stores what was read as the host
    obtain ⟨e, he, hj⟩ := exit_of_accepts userinfo_states.eitherColon hq (by decide) hv'
    rw [of_decide_eq_true he] at hj
    refine ⟨accepts_cons (j := ⟨[.saveHost], 521⟩) hv' hj rfl, fun mark uri rest => ?_⟩
    rw [List.cons_append, hrun, ← List.cons_append]
    refine exec_cons (x := ⟨q, some (b :: w ++ 58 :: rest), uri⟩) hj (by decide)
      (y := ⟨q, some (b :: w ++ 58 :: rest), { uri with host := b :: w }⟩) ?_
    rw [runActions, runAction, if_neg (Option.some_ne_none _), text_append]
    rfl

/-- From the userinfo on: what is stored of it, and some host, which is stored anew later. -/
theorem exec_userinfo {u : List UInt8} (hu : u ∈ userinfo) (mark : Option (List UInt8))
    (uri : Uri) (rest : List UInt8) :
    ∃ h, exec ⟨511, mark, uri⟩ (u ++ 64 :: rest) =
      exec ⟨522, none, { uri with userinfo := UriParts.keptUserinfo u, host := h }⟩ rest := by
  have hacc := accepts_userinfo hu
  have hbytes := within_userinfo u hu
  rcases split_colon u with hno | ⟨a, t, rfl, ha⟩
  · rw [keptUserinfo_noColon hno]
    -- nothing was stored as a host
    exact ⟨uri.host, exec_userinfo_noColon (within_name_of_noColon hbytes hno) hacc mark uri rest⟩
  · have hname := within_name_of_noColon (fun b hb => hbytes b (List.mem_append_left _ hb)) ha
    have ht : ∀ b ∈ t, (userinfoChar ||| percent).has b = true := fun b hb =>
      hbytes b (List.mem_append_right _ (List.mem_cons_of_mem _ hb))
    rw [List.append_assoc, List.cons_append] at hacc
    obtain ⟨hv, hrun⟩ := exec_toColon hname hacc
    have hend := exec_atColon ha ht hv { uri with host := a } rest
    rw [List.append_assoc, List.cons_append] at hend
    exact ⟨a, by rw [List.append_assoc, List.cons_append, hrun, hend]⟩

/-! ### Scheme -/

/-- From the beginning to the colon of the scheme. -/
theorem exec_schemeColon {w : List UInt8} (hw : w ∈ scheme) (rest : List UInt8) :
    exec ⟨start, none, {}⟩ (w ++ 58 :: rest) = exec ⟨509, none, { scheme := w }⟩ rest := by
  obtain ⟨_, ⟨b, hb, rfl⟩, t, ht, rfl⟩ := hw
  have htail : ∀ x ∈ t, schemeChar.has x = true :=
    CharClass.Within.kstar (CharClass.within_lang (Nat.and_self _)) t ht
  show exec _ (b :: (t ++ 58 :: rest)) = _
  have hx : runActions (58 :: rest) ⟨508, some (b :: t ++ 58 :: rest), {}⟩ [.saveScheme] =
      .ok ⟨508, none, { scheme := b :: t }⟩ := by
    rw [runActions, runAction, text_append]
    rfl
  rw [exec_cons_mark (x := ⟨start, none, {}⟩) (jump_eq scheme_states.entered hb) (by decide),
    exec_class scheme_states.loop (by decide) htail, ← List.cons_append,
    exec_cons (x := ⟨508, _, _⟩) scheme_states.colon (by decide) hx]
  rfl

/-- From the beginning to the authority. -/
theorem exec_scheme {w : List UInt8} (hw : w ∈ scheme) (rest : List UInt8) :
    exec ⟨start, none, {}⟩ (w ++ 58 :: 47 :: 47 :: rest) =
      exec ⟨511, none, { scheme := w }⟩ rest := by
  obtain ⟨hslash, hslash'⟩ := scheme_states.slashes
  rw [exec_schemeColon hw, exec_cons_st (x := ⟨509, none, _⟩) hslash (by decide),
    exec_cons_st (x := ⟨510, none, _⟩) hslash' (by decide)]

end UriParser

/-! ### The whole URI -/

namespace UriParts

/-- The fields `Uri::create` stores. -/
def stored (c : UriParts) : Uri :=
  c.withRest
    { scheme := c.scheme
      userinfo := (c.userinfo.map keptUserinfo).getD []
      host := c.host }

/-- **All fields of the URI.** -/
theorem create_render (c : UriParts) : Uri.create c.render = .ok (some c.stored) := by
  -- component by component, each one read where the one before has ended
  have hyields : Yields (exec ⟨start, none, {}⟩ c.render) c.stored := by
    rw [render, exec_scheme c.scheme_mem, afterScheme]
    cases hu : c.userinfo with
    | none =>
      rw [stored, hu]
      exact yields_host (.inl rfl) c ..
    | some u =>
      rw [stored, hu, atSuffixed, List.append_assoc]
      obtain ⟨h, hexec⟩ := exec_userinfo (c.userinfo_mem u hu) none { scheme := c.scheme }
        (c.host ++ (prefixed 58 c.port ++ c.afterPort))
      rw [List.cons_append, List.nil_append, hexec]
      exact yields_host (.inr rfl) c ..
  obtain ⟨x, hx, huri, hfin⟩ := hyields
  -- a final state is not the error state
  have hne : x.cs ≠ error := fun h0 => absurd hfin (by rw [h0]; decide)
  rw [Uri.create, hx]
  show (if x.cs = error then Except.ok none
    else if firstFinal ≤ x.cs then Except.ok (some x.uri) else Except.ok none) = _
  rw [if_neg hne, if_pos hfin, huri]

/-- The components are what the getters of the returned `Uri` say. -/
def Extracted (c : UriParts) : Prop :=
  ∃ u, Uri.create c.render = .ok (some u) ∧ u.scheme = c.scheme ∧
    u.userinfo = c.userinfo.getD [] ∧ u.host = c.host ∧ u.query = c.query.getD [] ∧
    u.fragment = c.fragment.getD [] ∧ u.getPath = if c.path = [] then [47] else c.path

/-- The userinfo has a digit behind its first colon. -/
def ColonDigit (c : UriParts) : Prop :=
  ∃ a d t, c.userinfo = some (a ++ 58 :: d :: t) ∧ 58 ∉ a ∧ 48 ≤ d ∧ d ≤ 57

/-- The other fields are the components. -/
theorem stored_fields (c : UriParts) : c.stored.scheme = c.scheme ∧
    c.stored.userinfo = (c.userinfo.map keptUserinfo).getD [] ∧ c.stored.host = c.host ∧
    c.stored.query = c.query.getD [] ∧ c.stored.fragment = c.fragment.getD [] ∧
    c.stored.path = c.path := by
  obtain ⟨_, u, _, p, _, q, f, _⟩ := c
  cases p <;> cases q <;> cases f <;> exact ⟨rfl, rfl, rfl, rfl, rfl, rfl⟩

/-- The class of digits by its bounds. -/
theorem digit_has (d : UInt8) : digit.has d = true ↔ 48 ≤ d ∧ d ≤ 57 := by
  have h := CharClass.has_range 48 57 d
  rw [digit, h, UInt8.le_iff_toNat_le, UInt8.le_iff_toNat_le]
  rfl

/-- A userinfo is stored as it is unless a digit follows its first colon. -/
theorem keptUserinfo_eq_iff (u : List UInt8) : keptUserinfo u = u ↔
    ¬ ∃ a d t, u = a ++ 58 :: d :: t ∧ 58 ∉ a ∧ 48 ≤ d ∧ d ≤ 57 := by
  rcases split_colon u with hno | ⟨a, t, rfl, ha⟩
  · refine iff_of_true (keptUserinfo_noColon hno) ?_
    rintro ⟨a, d, t, rfl, -, -⟩
    exact hno 58 (List.mem_append_right _ List.mem_cons_self) rfl
  -- the text is cut at its first colon
  · have hunique : ∀ a' t', a ++ 58 :: t = a' ++ 58 :: t' → 58 ∉ a' → t = t' := by
      intro a' t' heq ha'
      have hdrop := dropWhile_colon ha (58 :: t)
      rw [heq, dropWhile_colon (fun b hb h58 => ha' (h58 ▸ hb))] at hdrop
      exact (List.cons.inj hdrop).2.symm
    rw [keptUserinfo_colon ha]
    cases t with
    | nil =>
      refine iff_of_true rfl ?_
      rintro ⟨a', d, t', heq, ha', -⟩
      exact nomatch hunique a' _ heq ha'
    | cons d t =>
      -- a digit behind the colon: the machine has started a port and forgets what stands before
      by_cases hd : digit.has d = true
      · refine iff_of_false ?_ fun hnot => hnot ⟨a, d, t, rfl, fun h => ha 58 h rfl, ?_⟩
        · show (if digit.has d then d :: t else a ++ 58 :: d :: t) ≠ _
          rw [if_pos hd]
          intro h
          have hlen := congrArg List.length h
          simp only [List.length_append, List.length_cons] at hlen
          omega
        · exact (digit_has d).mp hd
      · refine iff_of_true (if_neg hd) ?_
        rintro ⟨a', d', t', heq, ha', hd'⟩
        obtain ⟨rfl, -⟩ := List.cons.inj (hunique a' _ heq ha')
        exact hd ((digit_has d).mpr hd')

/-- **When the getters return the components.**  They do unless the userinfo has a digit behind
    its first colon. -/
theorem extracted_iff (c : UriParts) : c.Extracted ↔ ¬ c.ColonDigit := by
  obtain ⟨hs, hu, hh, hq, hf, hp⟩ := c.stored_fields
  have hpath : c.stored.getPath = if c.path = [] then [47] else c.path := by
    rw [Uri.getPath, hp]
    simp only [List.isEmpty_iff]
  -- all other components are stored as they were written
  have hkept : c.Extracted ↔ (c.userinfo.map keptUserinfo).getD [] = c.userinfo.getD [] := by
    constructor
    · rintro ⟨u, hu', -, huser, -⟩
      rw [create_render] at hu'
      obtain rfl : c.stored = u := Option.some.inj (Except.ok.inj hu')
      rw [← hu, huser]
    · intro heq
      exact ⟨c.stored, c.create_render, hs, hu.trans heq, hh, hq, hf, hpath⟩
  rw [hkept, ColonDigit]
  cases c.userinfo with
  | none =>
    refine iff_of_true rfl ?_
    rintro ⟨_, _, _, h, -⟩
    exact nomatch h
  | some u =>
    rw [Option.map_some, Option.getD_some, Option.getD_some, keptUserinfo_eq_iff]
    simp only [Option.some.injEq]

/-! ### Components of examples -/

/-- The scheme `x`. -/
theorem scheme_x : [120] ∈ UriGrammar.scheme :=
  ⟨[120], CharClass.singleton_mem_lang (by decide), [], Language.nil_mem_kstar _, rfl⟩

/-- A path may be empty. -/
theorem pathAbempty_nil : [] ∈ pathAbempty := by
  rw [pathAbempty_eq]
  exact Language.nil_mem_kstar _

/-- A component that is absent has every property. -/
theorem mem_none {P : List UInt8 → Prop} : ∀ w ∈ (none : Option (List UInt8)), P w :=
  fun _ h => absurd h.symm (Option.some_ne_none _)

/-- A URI without user information has none that is not of the grammar. -/
theorem userinfo_none : ∀ u ∈ (none : Option (List UInt8)), u ∈ UriGrammar.userinfo := mem_none

/-- A URI without a port has none that is not of the grammar. -/
theorem port_none : ∀ p ∈ (none : Option (List UInt8)), p ∈ UriGrammar.port ∧ p ≠ [] := mem_none

/-- A URI without a query has none that is not of the grammar. -/
theorem query_none : ∀ q ∈ (none : Option (List UInt8)), q ∈ UriGrammar.query := mem_none

/-- A URI without a fragment has none that is not of the grammar. -/
theorem fragment_none : ∀ f ∈ (none : Option (List UInt8)), f ∈ UriGrammar.fragment := mem_none

/-- `x://u:1@h` -/
def portLikePassword : UriParts where
  scheme := [120]
  userinfo := some [117, 58, 49]
  host := [104]
  port := none
  path := []
  query := none
  fragment := none
  scheme_mem := scheme_x
  userinfo_mem := by
    intro u hu
    obtain rfl := Option.some.inj hu
    rw [userinfo_eq]
    refine Language.mem_kstar.mpr ⟨[[117], [58], [49]], rfl, ?_⟩
    simp only [List.mem_cons, List.not_mem_nil, or_false]
    rintro _ (rfl | rfl | rfl)
    · exact .inl (CharClass.singleton_mem_lang (by decide))
    · exact .inl (CharClass.singleton_mem_lang (by decide))
    · exact .inl (CharClass.singleton_mem_lang (by decide))
  host_mem := by
    refine .inr ?_
    rw [regName_eq]
    refine Language.mem_kstar.mpr ⟨[[104]], rfl, ?_⟩
    simp only [List.mem_cons, List.not_mem_nil, or_false]
    rintro _ rfl
    exact .inl (CharClass.singleton_mem_lang (by decide))
  port_mem := port_none
  path_mem := pathAbempty_nil
  query_mem := query_none
  fragment_mem := fragment_none

/-- Of the userinfo `u:1` only `1` is stored. -/
theorem extracted_portLikePassword : ¬ portLikePassword.Extracted := by
  have hstored : Uri.create portLikePassword.render = .ok (some
      { scheme := [120], userinfo := [49], host := [104] }) := by decide +kernel
  rintro ⟨u, hu, -, huser, -⟩
  rw [hstored] at hu
  obtain rfl := Option.some.inj (Except.ok.inj hu)
  exact absurd huser (by decide)

end UriParts

end LoNetfw.Net
