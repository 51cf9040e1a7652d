import LoNetfw.Basis.StepSystem
import LoNetfw.Net.Ipv6Address

namespace LoNetfw.Net

open Basis

/-!
# Socket — the cached local and peer addresses

A `Socket` keeps the addresses it has read from the kernel, for whatever descriptor it had then, and
returns them from then on.

* `Names` — what `getsockname` and `getpeername` report for a descriptor;
* `SocketRun.step` — `bind`, `connect`, `close` and the two queries on one `Socket`, with the
  kernel's answers;
* `SocketRun.Coherent` — while the socket is connected, the queries report the names of the
  current descriptor;
* `cache_coherent_iff` — that holds all along a run exactly when every address that is cached
  before a successful `connect` (or `bind` while connected) is the one the kernel has after it.
-/

/-- `AF_UNIX`. -/
def afUnix : ℕ := 1

/-- A socket name of the kernel: the family and the rest of the `sockaddr`. -/
structure Sockaddr where
  family : ℕ
  data : List UInt8
  deriving DecidableEq, Repr

/-- The class of an `Address` object. -/
inductive AddressClass
  | ipv4Address
  | ipv6Address
  | unixAddress
  | unknownAddress
  deriving DecidableEq, Repr

structure Address where
  cls : AddressClass
  addr : Sockaddr
  deriving DecidableEq, Repr

/-- `UnknownAddress(family)`; the family is stored in 16 bits. -/
def Address.unknown (family : ℤ) : Address :=
  ⟨.unknownAddress, ⟨(family % 65536).toNat, List.replicate 14 0⟩⟩

/-- The object that the name of a socket of this family is read into. -/
def AddressClass.ofFamily (family : ℤ) : AddressClass :=
  if family = IPv4Address.afInet then .ipv4Address
  else if family = IPv6Address.afInet6 then .ipv6Address
  else if family = afUnix then .unixAddress
  else .unknownAddress

/-- What the kernel reports for an open socket; `none` where the call fails. -/
structure Names where
  sockname : Option Sockaddr
  peername : Option Sockaddr
  deriving DecidableEq, Repr

/-- The open descriptors of the kernel. -/
abbrev SocketNames := ℕ → Option Names

/-- The part of a `Socket` that the calls below read. -/
structure Socket where
  /-- `m_sockfd`; `none` is `-1`. -/
  sockfd : Option ℕ
  family : ℤ
  isConnected : Bool
  localAddr : Option Address
  peerAddr : Option Address
  deriving DecidableEq, Repr

/-- A call, with the family of its address and the answers of the kernel: the descriptor that
    `socket()` returns if the socket has none, and the names of the descriptor after a call that
    succeeds. -/
inductive SocketCall
  | bind (family : ℤ) (opened : Option (ℕ × Names)) (result : Option Names)
  /-- With a timeout or without. -/
  | connect (family : ℤ) (opened : Option (ℕ × Names)) (result : Option Names)
  | close
  | getLocalAddress
  | getPeerAddress
  deriving DecidableEq, Repr

structure SocketRun where
  kernel : SocketNames
  socket : Socket

namespace SocketRun

/-- `Socket(family, …)`, with some descriptors open elsewhere. -/
def new (kernel : SocketNames) (family : ℤ) : SocketRun :=
  ⟨kernel, ⟨none, family, false, none, none⟩⟩

/-- `getsockname(m_sockfd)`. -/
def getsockname (s : SocketRun) : Option Sockaddr :=
  s.socket.sockfd.bind fun fd => (s.kernel fd).bind Names.sockname

/-- `getpeername(m_sockfd)`. -/
def getpeername (s : SocketRun) : Option Sockaddr :=
  s.socket.sockfd.bind fun fd => (s.kernel fd).bind Names.peername

/-- The address object for a name, or for a call that fails. -/
def report (s : SocketRun) : Option Sockaddr → Address
  | none => .unknown s.socket.family
  | some name => ⟨.ofFamily s.socket.family, name⟩

def getPeerAddress (s : SocketRun) : Address × SocketRun :=
  match s.socket.peerAddr with
  | some addr => (addr, s)
  | none =>
    match s.getpeername with
    | none => (s.report none, s)
    | some name =>
      let addr := s.report (some name)
      (addr, { s with socket := { s.socket with peerAddr := some addr } })

def getLocalAddress (s : SocketRun) : Address × SocketRun :=
  match s.socket.localAddr with
  | some addr => (addr, s)
  | none =>
    match s.getsockname with
    | none => (s.report none, s)
    | some name =>
      let addr := s.report (some name)
      (addr, { s with socket := { s.socket with localAddr := some addr } })

def isValid (s : SocketRun) : Bool := s.socket.sockfd.isSome

/-- `newSocket()`; the number is that of no open descriptor. -/
def newSocket (s : SocketRun) : Option (ℕ × Names) → Option SocketRun
  | none => some s
  | some (fd, names) =>
    if s.kernel fd = none then
      some ⟨Function.update s.kernel fd (some names), { s.socket with sockfd := some fd }⟩
    else none

/-- The kernel's names of the current descriptor change. -/
def rename (s : SocketRun) (names : Names) : SocketRun :=
  match s.socket.sockfd with
  | none => s
  | some fd => { s with kernel := Function.update s.kernel fd (some names) }

def close (s : SocketRun) : SocketRun :=
  if !s.socket.isConnected && s.socket.sockfd = none then s
  else
    match s.socket.sockfd with
    | none => { s with socket := { s.socket with isConnected := false } }
    | some fd =>
      ⟨Function.update s.kernel fd none, { s.socket with isConnected := false, sockfd := none }⟩

/-- `if (!isValid()) newSocket()`. -/
def opens (s : SocketRun) (opened : Option (ℕ × Names)) : Option SocketRun :=
  if s.isValid then some s else s.newSocket opened

/-- What `bind` and `connect` check before they call the kernel. -/
def passing (s : SocketRun) (family : ℤ) (opened : Option (ℕ × Names))
    (call : SocketRun → Bool × SocketRun) : Option (Bool × SocketRun) :=
  (s.opens opened).map fun s =>
    if !s.isValid then (false, s)
    else if s.socket.family ≠ family then (false, s)
    else call s

def bind (s : SocketRun) (family : ℤ) (opened : Option (ℕ × Names)) (result : Option Names) :
    Option (Bool × SocketRun) :=
  s.passing family opened fun s =>
    match result with
    | none => (false, s)
    | some names => (true, (s.rename names).getLocalAddress.2)

def connect (s : SocketRun) (family : ℤ) (opened : Option (ℕ × Names)) (result : Option Names) :
    Option (Bool × SocketRun) :=
  s.passing family opened fun s =>
    match result with
    | none => (false, s.close)
    | some names =>
      let s := s.rename names
      let s := { s with socket := { s.socket with isConnected := true } }
      (true, s.getLocalAddress.2.getPeerAddress.2)

def step (s : SocketRun) : SocketCall → Option SocketRun
  | .bind family opened result => (s.bind family opened result).map Prod.snd
  | .connect family opened result => (s.connect family opened result).map Prod.snd
  | .close => some s.close
  | .getLocalAddress => some s.getLocalAddress.2
  | .getPeerAddress => some s.getPeerAddress.2

/-- While the socket is connected, the queries report the names of its descriptor. -/
def Coherent (s : SocketRun) : Prop :=
  s.socket.isConnected = true →
    s.getPeerAddress.1 = s.report s.getpeername ∧ s.getLocalAddress.1 = s.report s.getsockname

/-- The addresses that are cached are the ones of these names. -/
def Caches (s : SocketRun) (names : Names) : Prop :=
  (∀ addr ∈ s.socket.peerAddr, addr = s.report names.peername) ∧
    ∀ addr ∈ s.socket.localAddr, addr = s.report names.sockname

/-- The call gets to the kernel: there is a descriptor for it, and the families agree. -/
def Passes (s : SocketRun) (family : ℤ) (opened : Option (ℕ × Names)) : Prop :=
  (s.isValid = true ∨ opened.isSome = true) ∧ s.socket.family = family

/-- The condition on a call: a `connect` that succeeds, or a `bind` on a connected socket, finds no
    cached address but those of the kernel's new names. -/
def KeepsCache (s : SocketRun) : SocketCall → Prop
  | .bind family opened (some names) =>
    s.socket.isConnected = true → s.Passes family opened → s.Caches names
  | .connect family opened (some names) => s.Passes family opened → s.Caches names
  | .bind _ _ none | .connect _ _ none | .close | .getLocalAddress | .getPeerAddress => True

instance (s : SocketRun) (names : Names) : Decidable (s.Caches names) :=
  inferInstanceAs (Decidable ((∀ addr ∈ s.socket.peerAddr, _) ∧ ∀ addr ∈ s.socket.localAddr, _))

instance (s : SocketRun) (family : ℤ) (opened : Option (ℕ × Names)) :
    Decidable (s.Passes family opened) := inferInstanceAs (Decidable (_ ∧ _))

instance (s : SocketRun) : (c : SocketCall) → Decidable (s.KeepsCache c)
  | .bind _ _ (some _) => inferInstanceAs (Decidable (_ → _ → _))
  | .connect _ _ (some _) => inferInstanceAs (Decidable (_ → _))
  | .bind _ _ none | .connect _ _ none | .close | .getLocalAddress | .getPeerAddress =>
    .isTrue trivial

variable {s s' t : SocketRun} {c : SocketCall}

/-! ### The queries -/

/-- A connected socket has a descriptor. -/
def Reached (s : SocketRun) : Prop := s.socket.isConnected = true → s.isValid = true

/-- A socket that is not connected promises nothing. -/
theorem coherent_of_not_connected (h : s.socket.isConnected = false) : s.Coherent :=
  fun hconn => absurd (h.symm.trans hconn) Bool.false_ne_true

/-- The cached address, and what the kernel says if there is none. -/
theorem getPeerAddress_fst :
    s.getPeerAddress.1 = s.socket.peerAddr.getD (s.report s.getpeername) := by
  unfold getPeerAddress
  cases s.socket.peerAddr with
  | some addr => exact rfl
  | none => cases s.getpeername <;> rfl

/-- `getLocalAddress` asks the kernel only the first time. -/
theorem getLocalAddress_fst :
    s.getLocalAddress.1 = s.socket.localAddr.getD (s.report s.getsockname) := by
  unfold getLocalAddress
  cases s.socket.localAddr with
  | some addr => exact rfl
  | none => cases s.getsockname <;> rfl

/-- A cache agrees with an address when what is in it does. -/
theorem getD_eq_iff (o : Option Address) (a : Address) : o.getD a = a ↔ ∀ addr ∈ o, addr = a := by
  cases o with
  | none => exact iff_of_true rfl fun _ h => absurd h (Option.not_mem_none _)
  | some b => simp only [Option.getD_some, Option.mem_some_iff, forall_eq']

/-- The queries are right when what is cached is. -/
theorem coherent_iff : s.Coherent ↔
    (s.socket.isConnected = true → s.Caches ⟨s.getsockname, s.getpeername⟩) := by
  unfold Coherent Caches
  rw [getPeerAddress_fst, getLocalAddress_fst, getD_eq_iff, getD_eq_iff]

/-- What a query does: it caches a name of the current descriptor, or nothing. -/
structure Reads (s s' : SocketRun) : Prop where
  kernel : s'.kernel = s.kernel
  sockfd : s'.socket.sockfd = s.socket.sockfd
  family : s'.socket.family = s.socket.family
  isConnected : s'.socket.isConnected = s.socket.isConnected
  caches : s'.Caches ⟨s.getsockname, s.getpeername⟩ ↔ s.Caches ⟨s.getsockname, s.getpeername⟩

/-- Nothing is read. -/
theorem Reads.refl (s : SocketRun) : Reads s s := ⟨rfl, rfl, rfl, rfl, Iff.rfl⟩

/-- A read does not change what the kernel says of the socket. -/
theorem Reads.getsockname (h : Reads s t) : t.getsockname = s.getsockname := by
  unfold SocketRun.getsockname
  rw [h.kernel, h.sockfd]

/-- Looking at a socket does not change what the kernel says of its peer. -/
theorem Reads.getpeername (h : Reads s t) : t.getpeername = s.getpeername := by
  unfold SocketRun.getpeername
  rw [h.kernel, h.sockfd]

/-- Reads one after the other are a read. -/
theorem Reads.trans (h : Reads s t) (h' : Reads t s') : Reads s s' where
  kernel := h'.kernel.trans h.kernel
  sockfd := h'.sockfd.trans h.sockfd
  family := h'.family.trans h.family
  isConnected := h'.isConnected.trans h.isConnected
  caches := by
    have := h'.caches
    rw [h.getsockname, h.getpeername] at this
    exact this.trans h.caches

/-- A query does not change whether the queries are right. -/
theorem Reads.coherent_iff (h : Reads s s') : s'.Coherent ↔ s.Coherent := by
  rw [SocketRun.coherent_iff, SocketRun.coherent_iff, h.isConnected, h.getsockname, h.getpeername,
    h.caches]

/-- `getPeerAddress` fills a cache and changes nothing else. -/
theorem reads_getPeerAddress : Reads s s.getPeerAddress.2 := by
  unfold getPeerAddress
  cases hpeer : s.socket.peerAddr with
  | some addr => exact .refl s
  | none =>
    cases hname : s.getpeername with
    | none => exact .refl s
    | some name =>
      refine ⟨rfl, rfl, rfl, rfl, and_congr_left' ?_⟩
      rw [hpeer, hname]
      apply iff_of_true
      · intro addr haddr
        exact (Option.some.inj haddr).symm
      · exact fun _ h => absurd h (Option.not_mem_none _)

/-- `getLocalAddress` changes nothing but the stored address. -/
theorem reads_getLocalAddress : Reads s s.getLocalAddress.2 := by
  unfold getLocalAddress
  cases hlocal : s.socket.localAddr with
  | some addr => exact .refl s
  | none =>
    cases hname : s.getsockname with
    | none => exact .refl s
    | some name =>
      refine ⟨rfl, rfl, rfl, rfl, and_congr_right' ?_⟩
      rw [hlocal, hname]
      apply iff_of_true
      · intro addr haddr
        exact (Option.some.inj haddr).symm
      · exact fun _ h => absurd h (Option.not_mem_none _)

/-! ### The calls -/

/-- What `newSocket()` before a call does. -/
structure Opens (s t : SocketRun) (opened : Option (ℕ × Names)) : Prop where
  same : s.isValid = true → t = s
  isValid : t.isValid = true ↔ s.isValid = true ∨ opened.isSome = true
  family : t.socket.family = s.socket.family
  isConnected : t.socket.isConnected = s.socket.isConnected
  caches : ∀ names, t.Caches names ↔ s.Caches names

/-- It may make a descriptor, and changes neither the caches nor the connection. -/
theorem opens_spec {opened : Option (ℕ × Names)} (h : s.opens opened = some t) :
    Opens s t opened := by
  unfold opens at h
  -- a socket that is open is left as it is
  by_cases hvalid : s.isValid = true
  · rw [if_pos hvalid] at h
    obtain rfl := Option.some.inj h
    exact ⟨fun _ => rfl, iff_of_true hvalid (Or.inl hvalid), rfl, rfl, fun _ => Iff.rfl⟩
  · rw [if_neg hvalid] at h
    cases opened with
    | none =>
      obtain rfl := Option.some.inj h
      refine ⟨fun _ => rfl, ?_, rfl, rfl, fun _ => Iff.rfl⟩
      exact (or_iff_left Bool.false_ne_true).symm
    | some r =>
      obtain ⟨-, h⟩ := Option.ite_none_right_eq_some.mp h
      obtain rfl := Option.some.inj h
      exact ⟨fun h => absurd h hvalid, iff_of_true rfl (Or.inr rfl), rfl, rfl, fun _ => Iff.rfl⟩

/-- A socket that has just got a descriptor is not connected. -/
theorem Opens.keeps {opened : Option (ℕ × Names)} (h : Opens s t opened) (hs : s.Reached)
    (hcoh : s.Coherent) : t.Reached ∧ t.Coherent := by
  by_cases hvalid : s.isValid = true
  · rw [h.same hvalid]
    exact ⟨hs, hcoh⟩
  · have hconn : t.socket.isConnected = false := by
      rw [h.isConnected]
      exact Bool.eq_false_iff.mpr (mt hs hvalid)
    exact ⟨fun h => absurd (hconn.symm.trans h) Bool.false_ne_true, coherent_of_not_connected hconn⟩

/-- A closed socket is not connected. -/
theorem close_not_connected : s.close.socket.isConnected = false := by
  unfold close
  split
  · rename_i h
    exact (Bool.not_eq_true' _).mp (Bool.and_eq_true_iff.mp h).1
  · cases s.socket.sockfd <;> rfl

/-- The names of a descriptor after a call. -/
theorem rename_spec (h : s.isValid = true) (names : Names) :
    (s.rename names).getsockname = names.sockname ∧
      (s.rename names).getpeername = names.peername ∧ (s.rename names).socket = s.socket := by
  obtain ⟨fd, hfd⟩ := Option.isSome_iff_exists.mp h
  unfold rename getsockname getpeername
  simp only [hfd, Option.bind_some, Function.update_self, and_self]

/-- A call stops before the kernel, or gets there with a descriptor. -/
theorem passing_spec {family : ℤ} {opened : Option (ℕ × Names)}
    {call : SocketRun → Bool × SocketRun} {r : Bool × SocketRun}
    (h : s.passing family opened call = some r) :
    ∃ t, Opens s t opened ∧ (¬s.Passes family opened ∧ r = (false, t) ∨
      s.Passes family opened ∧ t.isValid = true ∧ r = call t) := by
  obtain ⟨t, hopens, rfl⟩ := Option.map_eq_some_iff.mp h
  have ht := opens_spec hopens
  refine ⟨t, ht, ?_⟩
  unfold Passes
  rw [← ht.isValid, ← ht.family]
  by_cases hvalid : t.isValid = true
  -- the call returns before the system call when the families differ
  · by_cases hfamily : t.socket.family = family
    · refine Or.inr ⟨⟨hvalid, hfamily⟩, hvalid, ?_⟩
      rw [hvalid, Bool.not_true, if_neg Bool.false_ne_true, if_neg (not_not.mpr hfamily)]
    · refine Or.inl ⟨fun h => hfamily h.2, ?_⟩
      rw [hvalid, Bool.not_true, if_neg Bool.false_ne_true, if_pos hfamily]
  · refine Or.inl ⟨fun h => hvalid h.1, ?_⟩
    rw [Bool.eq_false_iff.mpr hvalid, Bool.not_false, if_pos rfl]

/-! ### Steps -/

/-- A step keeps that a connected socket has a descriptor, and the queries right exactly under its
    condition. -/
def StepOk (s s' : SocketRun) (c : SocketCall) : Prop :=
  s'.Reached ∧ (s'.Coherent ↔ s.KeepsCache c)

/-- A socket that is closed. -/
theorem stepOk_of_not_connected (h : s'.socket.isConnected = false) (hC : s.KeepsCache c) :
    StepOk s s' c :=
  ⟨fun hconn => absurd (h.symm.trans hconn) Bool.false_ne_true,
    iff_of_true (coherent_of_not_connected h) hC⟩

/-- A call that leaves the names of the kernel as they are. -/
theorem stepOk_of_reads (hs : s.Reached) (hcoh : s.Coherent) (h : Reads s s')
    (hC : s.KeepsCache c) : StepOk s s' c := by
  refine ⟨fun hconn => ?_, iff_of_true (h.coherent_iff.mpr hcoh) hC⟩
  unfold isValid
  rw [h.sockfd]
  exact hs (h.isConnected ▸ hconn)

/-- `bind` of a socket, whether or not it gets as far as the kernel. -/
theorem step_bind (hs : s.Reached) (hcoh : s.Coherent) {family : ℤ} {opened : Option (ℕ × Names)}
    {result : Option Names} (hstep : step s (.bind family opened result) = some s') :
    StepOk s s' (.bind family opened result) := by
  obtain ⟨r, hcall, rfl⟩ := Option.map_eq_some_iff.mp hstep
  obtain ⟨t, ht, ⟨hpass, rfl⟩ | ⟨hpass, hvalid, rfl⟩⟩ := passing_spec hcall
  · obtain ⟨hreached, hcoh'⟩ := ht.keeps hs hcoh
    refine ⟨hreached, iff_of_true hcoh' ?_⟩
    cases result with
    | none => trivial
    | some names => exact fun _ h => absurd h hpass
  · cases result with
    | none =>
      obtain ⟨hreached, hcoh'⟩ := ht.keeps hs hcoh
      exact ⟨hreached, iff_of_true hcoh' trivial⟩
    | some names =>
      -- the kernel has renamed the socket, and `getLocalAddress` reads the name if none is stored
      obtain ⟨hsock, hpeer, hsocket⟩ := rename_spec hvalid names
      have hread := reads_getLocalAddress (s := t.rename names)
      constructor
      · intro _
        unfold isValid
        rw [hread.sockfd, hsocket]
        exact hvalid
      · show _ ↔ (s.socket.isConnected = true → s.Passes family opened → s.Caches names)
        rw [hread.coherent_iff, coherent_iff, hsock, hpeer, hsocket, ht.isConnected]
        refine imp_congr_right fun _ => ?_
        rw [imp_iff_right hpass, ← ht.caches names]
        unfold Caches report
        rw [hsocket]

/-- `connect` of a socket, whether or not it gets as far as the kernel. -/
theorem step_connect (hs : s.Reached) (hcoh : s.Coherent) {family : ℤ}
    {opened : Option (ℕ × Names)} {result : Option Names}
    (hstep : step s (.connect family opened result) = some s') :
    StepOk s s' (.connect family opened result) := by
  obtain ⟨r, hcall, rfl⟩ := Option.map_eq_some_iff.mp hstep
  obtain ⟨t, ht, ⟨hpass, rfl⟩ | ⟨hpass, hvalid, rfl⟩⟩ := passing_spec hcall
  · obtain ⟨hreached, hcoh'⟩ := ht.keeps hs hcoh
    refine ⟨hreached, iff_of_true hcoh' ?_⟩
    cases result with
    | none => trivial
    | some names => exact fun h => absurd h hpass
  · cases result with
    -- a `connect` that fails closes the socket
    | none => exact stepOk_of_not_connected close_not_connected trivial
    | some names =>
      obtain ⟨hsock, hpeer, hsocket⟩ := rename_spec hvalid names
      let u : SocketRun :=
        { t.rename names with socket := { (t.rename names).socket with isConnected := true } }
      have hread : Reads u u.getLocalAddress.2.getPeerAddress.2 :=
        reads_getLocalAddress.trans reads_getPeerAddress
      have husock : u.getsockname = names.sockname := hsock
      have hupeer : u.getpeername = names.peername := hpeer
      have hconn : u.socket.isConnected = true := rfl
      have hcaches : u.Caches names ↔ t.Caches names := by
        show (t.rename names).Caches names ↔ _
        unfold Caches report
        rw [hsocket]
      constructor
      · intro _
        show (u.getLocalAddress.2.getPeerAddress.2).isValid = true
        unfold isValid
        rw [hread.sockfd]
        show (t.rename names).socket.sockfd.isSome = true
        rw [hsocket]
        exact hvalid
      · show (u.getLocalAddress.2.getPeerAddress.2).Coherent ↔
          (s.Passes family opened → s.Caches names)
        rw [hread.coherent_iff, coherent_iff, husock, hupeer, imp_iff_right hconn,
          imp_iff_right hpass, hcaches]
        exact ht.caches names

/-- **Step.** From a state where the queries are right, a call keeps them so exactly under the
    condition. -/
theorem step_ok (hs : s.Reached) (hcoh : s.Coherent) (hstep : step s c = some s') :
    StepOk s s' c := by
  cases c with
  | bind family opened result => exact step_bind hs hcoh hstep
  | connect family opened result => exact step_connect hs hcoh hstep
  | close =>
    obtain rfl := Option.some.inj hstep
    exact stepOk_of_not_connected close_not_connected trivial
  | getLocalAddress =>
    obtain rfl := Option.some.inj hstep
    exact stepOk_of_reads hs hcoh reads_getLocalAddress trivial
  | getPeerAddress =>
    obtain rfl := Option.some.inj hstep
    exact stepOk_of_reads hs hcoh reads_getPeerAddress trivial

end SocketRun

/-- The queries report the names of the descriptor all along a run exactly when a `connect` that
    succeeds, or a `bind` on a connected socket, finds no cached address but those of the kernel's
    new names. -/
theorem cache_coherent_iff (kernel : SocketNames) (family : ℤ) (cs : List SocketCall)
    (s : SocketRun) (hrun : runFrom SocketRun.step (.new kernel family) cs = some s) :
    Always SocketRun.step SocketRun.Coherent (.new kernel family) cs ↔
      Along SocketRun.step SocketRun.KeepsCache (.new kernel family) cs := by
  refine always_iff_along_of_stronger (J := fun s => s.Reached ∧ s.Coherent) (fun _ h => h.2)
    (fun s c s' h hstep hcoh => ?_) (fun s c s' h hC hstep => ?_) ⟨?_, ?_⟩ hrun
  · exact (SocketRun.step_ok h.1 h.2 hstep).2.mp hcoh
  · have hok := SocketRun.step_ok h.1 h.2 hstep
    exact ⟨hok.1, hok.2.mpr hC⟩
  · exact fun hconn => absurd hconn Bool.false_ne_true
  · exact SocketRun.coherent_of_not_connected rfl

/-- A TCP/IPv4 name. -/
def inetName (a b c d : UInt8) (portHigh portLow : UInt8) : Sockaddr :=
  ⟨2, [portHigh, portLow, a, b, c, d, 0, 0, 0, 0, 0, 0, 0, 0]⟩

/-- A new TCP/IPv4 socket. -/
def inetUnbound : Names := ⟨some (inetName 0 0 0 0 0 0), none⟩

/-- A connection from `10.0.0.1:40000` to port 80 of `10.0.0.2`. -/
def inetPort80 : Names := ⟨some (inetName 10 0 0 1 0x9c 0x40), some (inetName 10 0 0 2 0 80)⟩

/-- The names of a connection to port 81. -/
def inetPort81 : Names := ⟨some (inetName 10 0 0 1 0x9c 0x40), some (inetName 10 0 0 2 0 81)⟩

/-- A socket that is closed and connected again between the same addresses. -/
theorem cache_coherent_iff_reconnected :
    Always SocketRun.step SocketRun.Coherent (.new (fun _ => none) 2)
      [.connect 2 (some (5, inetUnbound)) (some inetPort80), .getPeerAddress, .close,
        .connect 2 (some (6, inetUnbound)) (some inetPort80), .getLocalAddress] := by
  obtain ⟨s, hrun⟩ : ∃ s, runFrom SocketRun.step (.new (fun _ => none) 2)
      [.connect 2 (some (5, inetUnbound)) (some inetPort80), .getPeerAddress, .close,
        .connect 2 (some (6, inetUnbound)) (some inetPort80), .getLocalAddress] = some s := ⟨_, rfl⟩
  exact (cache_coherent_iff _ 2 _ s hrun).mpr (by decide)

/-- After `close` and a `connect` to another port, `getPeerAddress` reports the first one; after a
    `bind` to the wildcard and a `connect`, `getLocalAddress` reports the wildcard. -/
theorem stale_addresses :
    (∃ s, runFrom SocketRun.step (.new (fun _ => none) 2)
        [.connect 2 (some (5, inetUnbound)) (some inetPort80), .close,
          .connect 2 (some (5, inetUnbound)) (some inetPort81)] = some s ∧
      s.getpeername = some (inetName 10 0 0 2 0 81) ∧
      s.getPeerAddress.1 = ⟨.ipv4Address, inetName 10 0 0 2 0 80⟩ ∧ ¬s.Coherent) ∧
    ∃ s, runFrom SocketRun.step (.new (fun _ => none) 2)
        [.bind 2 (some (5, inetUnbound)) (some ⟨some (inetName 0 0 0 0 0x9c 0x40), none⟩),
          .connect 2 none (some inetPort80)] = some s ∧
      s.getsockname = some (inetName 10 0 0 1 0x9c 0x40) ∧
      s.getLocalAddress.1 = ⟨.ipv4Address, inetName 0 0 0 0 0x9c 0x40⟩ ∧ ¬s.Coherent := by
  refine ⟨⟨_, rfl, by decide, by decide, fun h => ?_⟩, ⟨_, rfl, by decide, by decide, fun h => ?_⟩⟩
  · exact absurd (h rfl).1 (by decide)
  · exact absurd (h rfl).2 (by decide)

end LoNetfw.Net
