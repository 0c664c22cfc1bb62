import Emilua.Lib.Decimal
import Mathlib.Data.List.TakeWhile

/-!
`ip.tostring` and `ip.toendpoint`. What is between an address and its text is
Asio's, and is a parameter.
-/
namespace Emilua.Ip

abbrev Text := List UInt8

/-- `asio::ip::address`, `make_address` and `to_string`. -/
structure Asio (Addr : Type) where
  toString : Addr → Text
  makeAddress : Text → Except Nat Addr
  isV4 : Addr → Bool

inductive Error where
  | invalidArgument (arg : Nat)
  | resultOutOfRange (arg : Nat)
  /-- Raised by `luaL_checkinteger` and `luaL_checktype`. -/
  | badArgument (arg : Nat)
  | address (code : Nat)
deriving DecidableEq, Repr

/-- An argument; `integer` is what `luaL_checkinteger` accepts. -/
inductive Arg (Addr : Type) where
  | address (a : Addr)
  | integer (n : Int)
  | string (s : Text)
  | other

def colon : UInt8 := 58

def openBracket : UInt8 := 91

def closeBracket : UInt8 := 93

variable {Addr : Type} (asio : Asio Addr)

/-- The conversion to `std::uint16_t`. -/
def toPort (n : Int) : Nat := (n % 65536).toNat

def withPort (a : Addr) (port : Nat) : Text :=
  if asio.isV4 a then asio.toString a ++ [colon] ++ Decimal.numeral port
  else [openBracket] ++ asio.toString a ++ [closeBracket, colon] ++ Decimal.numeral port

def ipTostring : List (Arg Addr) → Except Error Text
  | [.address a] => .ok (asio.toString a)
  | [.address a, .integer n] => .ok (withPort asio a (toPort n))
  | [.address _, _] => .error (.badArgument 2)
  | .address _ :: _ => .error (.invalidArgument 3)
  | _ => .error (.invalidArgument 1)

/-- `string_view::rfind`, of one character. -/
def rfind (b : UInt8) : Text → Option Nat
  | [] => none
  | x :: xs =>
      match rfind b xs with
      | some i => some (i + 1)
      | none => if x = b then some 0 else none

/-- `std::from_chars` into a `std::uint16_t`: the number and what is left. -/
def fromChars (p : Text) : Except Error (Nat × Text) :=
  let ds := p.takeWhile Decimal.isDigit
  if ds = [] then .error (.invalidArgument 1)
  else if 65535 < Decimal.value ds then .error (.resultOutOfRange 1)
  else .ok (Decimal.value ds, p.dropWhile Decimal.isDigit)

/-- The text after the last colon. -/
def portOf (p : Text) : Except Error Nat :=
  if p.head? = some 48 ∧ p.length ≠ 1 then .error (.invalidArgument 1)
  else
    match fromChars p with
    | .error e => .error e
    | .ok (port, rest) => if rest = [] then .ok port else .error (.invalidArgument 1)

/-- The text before it, without brackets, and whether it had any. -/
def hostOf (host : Text) : Except Error (Text × Bool) :=
  if host.head? = some openBracket then
    if host.getLast? = some closeBracket then .ok (host.dropLast.drop 1, true) else .error (.invalidArgument 1)
  else .ok (host, false)

def makeEndpoint (host : Text) (isIpv6 : Bool) (port : Nat) : Except Error (Addr × Nat) :=
  match asio.makeAddress host with
  | .error code => .error (.address code)
  | .ok addr => if isIpv6 = asio.isV4 addr then .error (.invalidArgument 1) else .ok (addr, port)

def toEndpoint (s : Text) : Except Error (Addr × Nat) := do
  match rfind colon s with
  | none => .error (.invalidArgument 1)
  | some idx =>
      let p := s.drop (idx + 1)
      let port ← portOf p
      let (host, isIpv6) ← hostOf (s.take (s.length - (p.length + 1)))
      makeEndpoint asio host isIpv6 port

def ipToendpoint : List (Arg Addr) → Except Error (Addr × Nat)
  | .string s :: _ => toEndpoint asio s
  | _ => .error (.badArgument 1)

section
variable {asio} {b : UInt8} {l r s p host : Text} {i port : Nat} {a : Addr}

theorem rfind_none : rfind b s = none ↔ b ∉ s := by
  induction s with
  | nil => simp [rfind]
  | cons x xs ih =>
      rw [rfind, List.mem_cons, not_or, ← ih]
      cases rfind b xs with
      | some i => simp
      | none =>
          by_cases hx : x = b
          · simp [hx]
          · simp [hx, Ne.symm hx]

theorem rfind_append (h : b ∉ r) : rfind b (l ++ b :: r) = some l.length := by
  induction l with
  | nil =>
      rw [List.nil_append, rfind, rfind_none.mpr h]
      exact if_pos rfl
  | cons x xs ih =>
      rw [List.cons_append, rfind, ih]
      rfl

theorem rfind_some (h : rfind b s = some i) : ∃ l r, s = l ++ b :: r ∧ b ∉ r ∧ l.length = i := by
  induction s generalizing i with
  | nil => cases h
  | cons x xs ih =>
      rw [rfind] at h
      cases hrest : rfind b xs with
      | some j =>
          rw [hrest] at h
          cases h
          obtain ⟨l, r, rfl, hr, rfl⟩ := ih hrest
          exact ⟨x :: l, r, rfl, hr, rfl⟩
      | none =>
          rw [hrest] at h
          dsimp only at h
          split at h
          · rename_i hx
            cases h
            exact ⟨[], xs, by rw [hx]; rfl, rfind_none.mp hrest, rfl⟩
          · cases h

theorem fromChars_ok {rest : Text} (h : fromChars p = .ok (port, rest)) : port < 65536 ∧ p.takeWhile Decimal.isDigit ≠ [] ∧
    Decimal.value (p.takeWhile Decimal.isDigit) = port ∧ rest = p.dropWhile Decimal.isDigit := by
  rw [fromChars] at h
  split at h
  · cases h
  · rename_i hne
    split at h
    · cases h
    · rename_i hle
      cases h
      exact ⟨by omega, hne, rfl, rfl⟩

theorem fromChars_numeral (h : port < 65536) : fromChars (Decimal.numeral port) = .ok (port, []) := by
  have hdigits := Decimal.numeral_digits port
  have htake : (Decimal.numeral port).takeWhile Decimal.isDigit = Decimal.numeral port := List.takeWhile_eq_self_iff.mpr hdigits
  have hdrop : (Decimal.numeral port).dropWhile Decimal.isDigit = [] := List.dropWhile_eq_nil_iff.mpr hdigits
  rw [fromChars, htake, hdrop, if_neg (Decimal.numeral_ne_nil port), Decimal.value_numeral, if_neg (by omega)]

/-- A port is accepted if it is written without leading zeros. -/
theorem portOf_iff : portOf p = .ok port ↔ port < 65536 ∧ p = Decimal.numeral port := by
  constructor
  · intro h
    rw [portOf] at h
    split at h
    · cases h
    · rename_i hlead
      split at h
      · cases h
      · rename_i n rest hread
        split at h
        · rename_i hrest
          cases h
          obtain ⟨hlt, hne, hvalue, hdrop⟩ := fromChars_ok hread
          rw [hrest] at hdrop
          have hall : ∀ b ∈ p, Decimal.isDigit b = true := List.dropWhile_eq_nil_iff.mp hdrop.symm
          have htake : p.takeWhile Decimal.isDigit = p := List.takeWhile_eq_self_iff.mpr hall
          rw [htake] at hne hvalue
          refine ⟨hlt, ?_⟩
          rw [← hvalue]
          exact (Decimal.numeral_value hne hall fun hhead => by_contra fun hlen => hlead ⟨hhead, hlen⟩).symm
        · cases h
  · rintro ⟨hlt, rfl⟩
    have hlead : ¬ ((Decimal.numeral port).head? = some 48 ∧ (Decimal.numeral port).length ≠ 1) := fun h =>
      h.2 (Decimal.numeral_lead h.1)
    rw [portOf, if_neg hlead, fromChars_numeral hlt]
    rfl

theorem hostOf_iff {v6 : Bool} : hostOf s = .ok (host, v6) ↔
    (v6 = true ∧ s = openBracket :: host ++ [closeBracket]) ∨ (v6 = false ∧ s = host ∧ host.head? ≠ some openBracket) := by
  constructor
  · intro h
    rw [hostOf] at h
    split at h
    · rename_i hopen
      split at h
      · rename_i hclose
        cases h
        obtain ⟨init, rfl⟩ := List.getLast?_eq_some_iff.mp hclose
        cases init with
        | nil => cases hopen
        | cons x init =>
            cases hopen
            refine .inl ⟨rfl, ?_⟩
            rw [List.dropLast_concat]
            rfl
      · cases h
    · rename_i hopen
      cases h
      exact .inr ⟨rfl, rfl, hopen⟩
  · rintro (⟨rfl, rfl⟩ | ⟨rfl, rfl, hopen⟩)
    · have hopen : (openBracket :: host ++ [closeBracket]).head? = some openBracket := rfl
      have hclose : (openBracket :: host ++ [closeBracket]).getLast? = some closeBracket := List.getLast?_concat
      have hdrop : (openBracket :: host ++ [closeBracket]).dropLast = openBracket :: host := List.dropLast_concat
      rw [hostOf, if_pos hopen, if_pos hclose, hdrop]
      rfl
    · exact if_neg hopen

theorem toEndpoint_append (hr : colon ∉ r) : toEndpoint asio (l ++ colon :: r) = (do
    let port ← portOf r
    let (host, isIpv6) ← hostOf l
    makeEndpoint asio host isIpv6 port) := by
  have hdrop : (l ++ colon :: r).drop (l.length + 1) = r := by
    rw [List.drop_append, List.drop_of_length_le (Nat.le_succ _), Nat.add_sub_cancel_left]
    rfl
  have htake : (l ++ colon :: r).take ((l ++ colon :: r).length - (r.length + 1)) = l := by
    rw [List.length_append, List.length_cons, Nat.add_sub_cancel, List.take_left]
  rw [toEndpoint, rfind_append hr]
  dsimp only
  rw [hdrop, htake]

theorem colon_numeral (n : Nat) : colon ∉ Decimal.numeral n := by
  intro hmem
  cases Decimal.numeral_digits n colon hmem

theorem makeEndpoint_ok {v6 : Bool} {n : Nat} :
    makeEndpoint asio host v6 n = .ok (a, port) ↔ n = port ∧ asio.makeAddress host = .ok a ∧ v6 ≠ asio.isV4 a := by
  rw [makeEndpoint]
  cases hmake : asio.makeAddress host with
  | error code =>
      constructor
      · intro h
        cases h
      · rintro ⟨-, h, -⟩
        cases h
  | ok addr =>
      dsimp only
      constructor
      · intro h
        split at h
        · cases h
        · rename_i hkind
          cases h
          exact ⟨rfl, rfl, hkind⟩
      · rintro ⟨rfl, h, hkind⟩
        cases h
        exact if_neg hkind

/-- An endpoint that is accepted. -/
theorem toEndpoint_ok : toEndpoint asio s = .ok (a, port) ↔ port < 65536 ∧ ∃ host, asio.makeAddress host = .ok a ∧
    ((asio.isV4 a = true ∧ host.head? ≠ some openBracket ∧ s = host ++ colon :: Decimal.numeral port) ∨
      (asio.isV4 a = false ∧ s = openBracket :: host ++ closeBracket :: colon :: Decimal.numeral port)) := by
  constructor
  · intro h
    cases hfind : rfind colon s with
    | none =>
        rw [toEndpoint, hfind] at h
        cases h
    | some idx =>
        obtain ⟨l, r, rfl, hr, -⟩ := rfind_some hfind
        rw [toEndpoint_append hr] at h
        cases hport : portOf r with
        | error e =>
            rw [hport] at h
            cases h
        | ok n =>
            rw [hport] at h
            obtain ⟨hlt, rfl⟩ := portOf_iff.mp hport
            cases hhost : hostOf l with
            | error e =>
                rw [hhost] at h
                cases h
            | ok x =>
                obtain ⟨host, v6⟩ := x
                rw [hhost] at h
                obtain ⟨rfl, hmake, hkind⟩ := makeEndpoint_ok.mp h
                refine ⟨hlt, host, hmake, ?_⟩
                rcases hostOf_iff.mp hhost with ⟨rfl, rfl⟩ | ⟨rfl, rfl, hopen⟩
                · right
                  refine ⟨Bool.eq_false_iff.mpr (Ne.symm hkind), ?_⟩
                  rw [List.append_assoc]
                  rfl
                · exact .inl ⟨Bool.eq_true_of_not_eq_false (Ne.symm hkind), hopen, rfl⟩
  · rintro ⟨hlt, host, hmake, ⟨hv4, hopen, rfl⟩ | ⟨hv6, rfl⟩⟩
    · have hhost : hostOf host = .ok (host, false) := hostOf_iff.mpr (.inr ⟨rfl, rfl, hopen⟩)
      rw [toEndpoint_append (colon_numeral port), portOf_iff.mpr ⟨hlt, rfl⟩, hhost]
      exact makeEndpoint_ok.mpr ⟨rfl, hmake, by rw [hv4]; decide⟩
    · have hhost : hostOf (openBracket :: host ++ [closeBracket]) = .ok (host, true) := hostOf_iff.mpr (.inl ⟨rfl, rfl⟩)
      have hsplit : openBracket :: host ++ closeBracket :: colon :: Decimal.numeral port =
          (openBracket :: host ++ [closeBracket]) ++ colon :: Decimal.numeral port := by
        rw [List.append_assoc]
        rfl
      rw [hsplit, toEndpoint_append (colon_numeral port), portOf_iff.mpr ⟨hlt, rfl⟩, hhost]
      exact makeEndpoint_ok.mpr ⟨rfl, hmake, by rw [hv6]; decide⟩

theorem toPort_lt (n : Int) : toPort n < 65536 := by
  rw [toPort]
  omega

theorem toPort_eq (h : port < 65536) : toPort port = port := by
  rw [toPort]
  omega

theorem withPort_read (hround : asio.makeAddress (asio.toString a) = .ok a)
    (hv4 : asio.isV4 a = true → (asio.toString a).head? ≠ some openBracket) (hport : port < 65536) :
    toEndpoint asio (withPort asio a port) = .ok (a, port) := by
  apply toEndpoint_ok.mpr
  refine ⟨hport, asio.toString a, hround, ?_⟩
  cases hkind : asio.isV4 a with
  | true =>
      refine .inl ⟨rfl, hv4 hkind, ?_⟩
      rw [withPort, if_pos hkind, List.append_assoc]
      rfl
  | false =>
      refine .inr ⟨rfl, ?_⟩
      rw [withPort, hkind, if_neg Bool.false_ne_true, List.append_assoc, List.append_assoc]
      rfl

/-- An endpoint that was written is read again. What is read is the text of an address
and a port without leading zeros, with brackets around the addresses of IPv6 and no
others, and is what would be written if the address is in the form it would be written in. -/
theorem endpoint_round_trip (hround : ∀ a, asio.makeAddress (asio.toString a) = .ok a)
    (hv4 : ∀ a, asio.isV4 a = true → (asio.toString a).head? ≠ some openBracket) :
    (∀ a n, ∃ s, ipTostring asio [.address a, .integer n] = .ok s ∧ ipToendpoint asio [.string s] = .ok (a, toPort n)) ∧
    ∀ s a port, ipToendpoint asio [.string s] = .ok (a, port) →
      port < 65536 ∧ ∃ host, asio.makeAddress host = .ok a ∧
        (s = if asio.isV4 a then host ++ colon :: Decimal.numeral port
          else openBracket :: host ++ closeBracket :: colon :: Decimal.numeral port) ∧
        (host = asio.toString a ↔ ipTostring asio [.address a, .integer port] = .ok s) := by
  constructor
  · intro a n
    exact ⟨withPort asio a (toPort n), rfl, withPort_read (hround a) (hv4 a) (toPort_lt n)⟩
  · intro s a port h
    obtain ⟨hport, host, hmake, hs⟩ := toEndpoint_ok.mp h
    have hwritten : ipTostring asio [.address a, .integer port] = .ok (withPort asio a port) := by
      change Except.ok (withPort asio a (toPort port)) = _
      rw [toPort_eq hport]
    refine ⟨hport, host, hmake, ?_, ?_⟩
    · rcases hs with ⟨hkind, -, rfl⟩ | ⟨hkind, rfl⟩
      · rw [if_pos hkind]
      · rw [hkind, if_neg Bool.false_ne_true]
    · rw [hwritten, Except.ok.injEq, withPort]
      rcases hs with ⟨hkind, -, rfl⟩ | ⟨hkind, rfl⟩
      · rw [if_pos hkind, List.append_assoc, eq_comm]
        exact (List.append_left_inj _).symm
      · rw [hkind, if_neg Bool.false_ne_true, List.append_assoc, List.append_assoc, eq_comm]
        constructor
        · rintro rfl
          rfl
        · intro heq
          have htail : asio.toString a ++ closeBracket :: colon :: Decimal.numeral port =
              host ++ closeBracket :: colon :: Decimal.numeral port := (List.cons.inj heq).2
          exact List.append_cancel_right htail

/-- Two addresses, to read endpoints with. -/
inductive Loopback where
  | v4
  | v6
deriving DecidableEq, Repr

def Loopback.text : Loopback → Text
  | v4 => [49, 50, 55, 46, 48, 46, 48, 46, 49]
  | v6 => [58, 58, 49]

def loopback : Asio Loopback where
  toString := Loopback.text
  makeAddress s := if s = Loopback.text .v4 then .ok .v4 else if s = Loopback.text .v6 then .ok .v6 else .error 22
  isV4
    | .v4 => true
    | .v6 => false

theorem endpoint_round_trip_loopback :
    ∃ s, ipTostring loopback [.address .v6, .integer 8080] = .ok s ∧ ipToendpoint loopback [.string s] = .ok (.v6, 8080) := by
  have hround : ∀ a, loopback.makeAddress (loopback.toString a) = .ok a := by
    intro a
    cases a <;> decide
  have hv4 : ∀ a, loopback.isV4 a = true → (loopback.toString a).head? ≠ some openBracket := by
    intro a
    cases a <;> decide
  exact (endpoint_round_trip hround hv4).1 .v6 8080

end

end Emilua.Ip
