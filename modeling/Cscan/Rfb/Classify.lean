import Cscan.Rfb.Ending

/-! What the server is, by what it sends, and what `check_vnc` takes it for: a server that stops or refuses once
`ret` is 0 is taken for one that requires authentication. -/

namespace Cscan.Rfb

open Cscan.Lib

/-- The security types of a list that come before the stream fails. -/
def typesIn : List UInt8 → List UInt8
  | [] => []
  | count :: rest => rest.take count.toNat

/-- A list that names at least one security type, and comes whole. -/
def Listed (list : List UInt8) : Prop :=
  ∃ count rest, list = count :: rest ∧ count ≠ 0 ∧ count.toNat ≤ rest.length

/-- A list that names at least one security type, and comes in part. -/
def Cut (list : List UInt8) : Prop :=
  ∃ count rest, list = count :: rest ∧ count ≠ 0 ∧ rest.length < count.toNat

def OnlyTls (list : List UInt8) : Prop := Listed list ∧ ∀ t ∈ typesIn list, t = tls

namespace Server

/-- The version that `check_vnc` has answered with, and what comes behind the banner. -/
def answered (server : Server) : Option ((Int × Int) × List UInt8) :=
  if server.sock = -1 ∨ server.sent.length < 12 ∨ server.writes = 0 then none
  else (scanVersion (server.sent.take 12 ++ List.replicate 4 0)).map fun v =>
    (remap v.1 v.2, server.sent.drop 12)

/-- What comes where the server lists its security types. -/
def firstList (server : Server) : Option (List UInt8) :=
  server.answered.bind fun (v, rest) => if v.1 = 3 ∧ v.2 > 6 then some rest else none

/-- What comes where the server chooses the security type. -/
def authStream (server : Server) : Option (List UInt8) :=
  server.answered.bind fun (v, rest) => if v.1 = 3 ∧ v.2 > 6 then none else some rest

/-- The server lists nothing but TLS. -/
def WantsTls (server : Server) : Prop := ∃ list, server.firstList = some list ∧ OnlyTls list

/-- `list` is what comes in TLS. -/
def TlsList (server : Server) (list : List UInt8) : Prop :=
  server.WantsTls ∧ 1 < server.writes ∧ server.tls = some list

/-- A list of security types contains 1 before the stream fails, or the server chooses 1. -/
def Wins (server : Server) : Prop :=
  (∃ list, server.firstList = some list ∧ 1 ∈ typesIn list) ∨
  (∃ list, server.TlsList list ∧ 1 ∈ typesIn list) ∨
  ∃ rest, server.authStream = some ([0, 0, 0, 1] ++ rest)

/-- The whole negotiation comes, and 1 is not among what the server has. -/
def RequiresAuth (server : Server) : Prop :=
  (∃ list, server.firstList = some list ∧ Listed list ∧ 1 ∉ typesIn list ∧ ∃ t ∈ typesIn list, t ≠ Rfb.tls) ∨
  (∃ list, server.TlsList list ∧ Listed list ∧ 1 ∉ typesIn list) ∨
  ∃ mode rest, server.authStream = some (mode ++ rest) ∧ mode.length = 4 ∧ mode ≠ [0, 0, 0, 0] ∧
    mode ≠ [0, 0, 0, 1]

/-- The server stops or refuses behind the point where `ret` is set to 0: in the first list, once it has
listed nothing but TLS, or when it has chosen the security type 0. -/
def StopsLate (server : Server) : Prop :=
  (∃ list, server.firstList = some list ∧ Cut list ∧ 1 ∉ typesIn list) ∨
  (server.WantsTls ∧ ¬ ∃ list, server.TlsList list ∧ (1 ∈ typesIn list ∨ Listed list)) ∨
  ∃ rest, server.authStream = some ([0, 0, 0, 0] ++ rest)

/-- The server announces a reason of 2³¹ bytes or more in TLS, and sends more than the buffer has room for. -/
def LongReason (server : Server) : Prop :=
  ∃ len < 2 ^ 32, 2 ^ 31 ≤ len ∧ ∃ text, 512 < text.length ∧
    server.TlsList (0 :: (ByteOrder.big.encode 4 len ++ text))

end Server

/-- A code that tells of a failure. -/
def Failure (c : Int32) : Prop :=
  c = readFail ∨ c = writeFail ∨ c = bannerFail ∨ c = tlsFail ∨ c = reason

theorem Failure.ne_win {c : Int32} (h : Failure c) : c ≠ win := by
  rcases h with rfl | rfl | rfl | rfl | rfl <;> decide

/-- More comes of a reason than the buffer has room for. -/
def Overruns (incoming : List UInt8) : Prop :=
  4 ≤ incoming.length ∧ 512 < ((incoming.drop 4).take (reasonSize (incoming.take 4))).length

theorem endReason_cases (ret : Int) (incoming : List UInt8) :
    (Overruns incoming ∧ endReason true ret incoming = .overrun) ∨
      (¬ Overruns incoming ∧ ∃ c, Failure c ∧ endReason true ret incoming = .failed ret c) := by
  by_cases hshort : incoming.length < 4
  · exact Or.inr ⟨fun h => absurd h.1 (by omega), readFail, by simp [Failure], if_pos hshort⟩
  have hlong : endReason true ret incoming = _ := (if_neg hshort).trans (if_neg (by simp))
  by_cases hroom : 512 < ((incoming.drop 4).take (reasonSize (incoming.take 4))).length
  · exact Or.inl ⟨⟨by omega, hroom⟩, hlong.trans (if_pos hroom)⟩
  refine Or.inr ⟨fun h => hroom h.2, ?_⟩
  by_cases hcut : (incoming.drop 4).length < reasonSize (incoming.take 4)
  · exact ⟨readFail, by simp [Failure], hlong.trans ((if_neg hroom).trans (if_pos hcut))⟩
  · exact ⟨reason, by simp [Failure], hlong.trans ((if_neg hroom).trans (if_neg hcut))⟩

/-- Without TLS a reason that is too long cannot be read. -/
theorem endReason_plain (ret : Int) (incoming : List UInt8) :
    ∃ c, Failure c ∧ endReason false ret incoming = .failed ret c := by
  by_cases hshort : incoming.length < 4
  · exact ⟨readFail, by simp [Failure], if_pos hshort⟩
  have hlong : endReason false ret incoming = _ := if_neg hshort
  by_cases hsize : ssizeMax < reasonSize (incoming.take 4)
  · exact ⟨readFail, by simp [Failure], hlong.trans (if_pos ⟨hsize, rfl⟩)⟩
  have hlong : endReason false ret incoming = _ := hlong.trans (if_neg fun h => hsize h.1)
  have hlength : (incoming.take 4).length = 4 := by
    rw [List.length_take]
    omega
  have hroom := reasonSize_le (Nat.not_lt.mp hsize) hlength
  have htake := List.length_take_le (reasonSize (incoming.take 4)) (incoming.drop 4)
  have hlong : endReason false ret incoming = _ := hlong.trans (if_neg (by omega))
  by_cases hcut : (incoming.drop 4).length < reasonSize (incoming.take 4)
  · exact ⟨readFail, by simp [Failure], hlong.trans (if_pos hcut)⟩
  · exact ⟨reason, by simp [Failure], hlong.trans (if_neg hcut)⟩

theorem overruns_iff (incoming : List UInt8) :
    Overruns incoming ↔ ∃ len < 2 ^ 32, 2 ^ 31 ≤ len ∧ ∃ text, 512 < text.length ∧
      incoming = ByteOrder.big.encode 4 len ++ text := by
  constructor
  · rintro ⟨hlong, hroom⟩
    obtain ⟨len, hlen, hbytes⟩ := ByteOrder.big.exists_encode (show (incoming.take 4).length = 4 by simp [hlong])
    have hsize := reasonSize_le_iff hlen
    rw [hbytes, List.length_take] at hroom
    refine ⟨len, hlen, by omega, incoming.drop 4, by omega, ?_⟩
    rw [← hbytes, List.take_append_drop]
  · rintro ⟨len, hlen, hneg, text, htext, rfl⟩
    have hlength : (ByteOrder.big.encode 4 len).length = 4 := ByteOrder.length_encode ..
    have hsize := reasonSize_le_iff hlen
    refine ⟨by simp, ?_⟩
    rw [List.take_left' hlength, List.drop_left' hlength, List.length_take]
    omega

theorem list_cases (list : List UInt8) :
    list = [] ∨ (∃ rest, list = 0 :: rest) ∨ 1 ∈ typesIn list ∨ (Cut list ∧ 1 ∉ typesIn list) ∨
      (Listed list ∧ 1 ∉ typesIn list) := by
  cases list with
  | nil => exact Or.inl rfl
  | cons count rest =>
    by_cases hzero : count = 0
    · exact Or.inr (Or.inl ⟨rest, by rw [hzero]⟩)
    by_cases hwin : 1 ∈ typesIn (count :: rest)
    · exact Or.inr (Or.inr (Or.inl hwin))
    by_cases hcut : rest.length < count.toNat
    · exact Or.inr (Or.inr (Or.inr (Or.inl ⟨⟨count, rest, rfl, hzero, hcut⟩, hwin⟩)))
    · exact Or.inr (Or.inr (Or.inr (Or.inr ⟨⟨count, rest, rfl, hzero, by omega⟩, hwin⟩)))

section Lists

variable {ssl : Bool} {later : List UInt8 → Ending} {ret : Int} {list : List UInt8}

theorem endList_win (h : 1 ∈ typesIn list) : endList ssl later ret list = .win := by
  cases list with
  | nil => cases h
  | cons count rest =>
    have hcount : count ≠ 0 := by
      rintro rfl
      cases h
    exact (if_neg hcount).trans (if_pos h)

theorem endList_cut (hcut : Cut list) (h : 1 ∉ typesIn list) :
    endList ssl later ret list = .failed 0 readFail := by
  obtain ⟨count, rest, rfl, hcount, hshort⟩ := hcut
  exact (if_neg hcount).trans ((if_neg h).trans (if_pos hshort))

theorem endList_listed (hlisted : Listed list) (h : 1 ∉ typesIn list) :
    endList ssl later ret list = later (typesIn list) := by
  obtain ⟨count, rest, rfl, hcount, hlong⟩ := hlisted
  exact (if_neg hcount).trans ((if_neg h).trans (if_neg (Nat.not_lt.mpr hlong)))

theorem OnlyTls.no_win (h : OnlyTls list) : 1 ∉ typesIn list := by
  intro hwin
  have htls := h.2 1 hwin
  cases htls

theorem endList_onlyTls {writes : Nat} {plain : Option (List UInt8)} (h : OnlyTls list) :
    endList ssl (endFirst writes plain false) ret list = endTls writes plain := by
  rw [endList_listed h.1 h.no_win]
  refine if_neg ?_
  rintro (hfalse | ⟨t, ht, hne⟩)
  · cases hfalse
  · exact hne (h.2 t ht)

theorem endTls_some {writes : Nat} {plain : List UInt8} (h : writes ≠ 0) :
    endTls writes (some plain) = endList true (fun _ => .auth) 0 plain := if_neg h

end Lists

namespace Server

variable {server : Server} {list : List UInt8}

theorem answered_ending {v : Int × Int} {rest : List UInt8} (h : server.answered = some (v, rest)) :
    server.writes ≠ 0 ∧ server.ending = if v.1 = 3 ∧ v.2 > 6 then
      endList false (endFirst (server.writes - 1) server.tls false) (-1) rest else endAuth rest := by
  unfold answered at h
  split at h
  · cases h
  rename_i hstart
  obtain ⟨hsock, hlong, hwrites⟩ : server.sock ≠ -1 ∧ ¬ server.sent.length < 12 ∧ server.writes ≠ 0 := by
    simpa only [not_or] using hstart
  obtain ⟨⟨major, minor⟩, hscan, hv⟩ := Option.map_eq_some_iff.mp h
  cases hv
  refine ⟨hwrites, ?_⟩
  rw [ending, if_neg (by simp [hsock, hlong]), hscan, endVersion, if_neg hwrites]

theorem unanswered_ending (h : server.answered = none) :
    server.ending = .silent ∨ ∃ c, Failure c ∧ server.ending = .failed (-1) c := by
  unfold answered at h
  unfold ending
  by_cases hstart : server.sock = -1 ∨ server.sent.length < 12
  · rw [if_pos hstart]
    exact Or.inl rfl
  rw [if_neg hstart]
  cases hscan : scanVersion (server.sent.take 12 ++ List.replicate 4 0) with
  | none => exact Or.inr ⟨bannerFail, by simp [Failure], rfl⟩
  | some v =>
    have hwrites : server.writes = 0 := by
      by_contra hwrites
      rw [if_neg (by simpa [not_or, hwrites] using hstart), hscan] at h
      cases h
    exact Or.inr ⟨writeFail, by simp [Failure], if_pos hwrites⟩

theorem firstList_ending (h : server.firstList = some list) : server.writes ≠ 0 ∧
    server.ending = endList false (endFirst (server.writes - 1) server.tls false) (-1) list := by
  obtain ⟨⟨v, rest⟩, hanswered, h⟩ := Option.bind_eq_some_iff.mp h
  by_cases hlists : v.1 = 3 ∧ v.2 > 6
  · have hrest : rest = list := by simpa [hlists] using h
    obtain ⟨hwrites, hending⟩ := answered_ending hanswered
    rw [if_pos hlists] at hending
    exact ⟨hwrites, hrest ▸ hending⟩
  · simp [hlists] at h

theorem authStream_ending (h : server.authStream = some list) : server.ending = endAuth list := by
  obtain ⟨⟨v, rest⟩, hanswered, h⟩ := Option.bind_eq_some_iff.mp h
  by_cases hlists : v.1 = 3 ∧ v.2 > 6
  · simp [hlists] at h
  · have hrest : rest = list := by simpa [hlists] using h
    obtain ⟨-, hending⟩ := answered_ending hanswered
    rw [if_neg hlists] at hending
    exact hrest ▸ hending

/-- Where the negotiation is decided. -/
theorem stream_cases (server : Server) :
    server.answered = none ∨ (∃ list, server.firstList = some list) ∨
      ∃ rest, server.authStream = some rest := by
  unfold firstList authStream
  cases hanswered : server.answered with
  | none => exact Or.inl rfl
  | some answer =>
    by_cases hlists : answer.1.1 = 3 ∧ answer.1.2 > 6
    · exact Or.inr (Or.inl ⟨answer.2, if_pos hlists⟩)
    · exact Or.inr (Or.inr ⟨answer.2, if_neg hlists⟩)

theorem wantsTls_ending (h : server.WantsTls) :
    server.writes ≠ 0 ∧ server.ending = endTls (server.writes - 1) server.tls := by
  obtain ⟨list, hlist, honly⟩ := h
  obtain ⟨hwrites, hending⟩ := firstList_ending hlist
  exact ⟨hwrites, hending.trans (endList_onlyTls honly)⟩

theorem tlsList_ending (h : server.TlsList list) : server.ending = endList true (fun _ => .auth) 0 list := by
  obtain ⟨hwants, hwrites, hplain⟩ := h
  rw [(wantsTls_ending hwants).2, hplain, endTls_some (by omega)]

theorem Wins.ending (h : server.Wins) : server.ending = .win := by
  rcases h with ⟨list, hlist, hwin⟩ | ⟨list, hlist, hwin⟩ | ⟨rest, hrest⟩
  · rw [(firstList_ending hlist).2, endList_win hwin]
  · rw [tlsList_ending hlist, endList_win hwin]
  · rw [authStream_ending hrest]
    rfl

theorem RequiresAuth.ending (h : server.RequiresAuth) : server.ending = .auth := by
  rcases h with ⟨list, hlist, hlisted, hnone, hother⟩ | ⟨list, hlist, hlisted, hnone⟩ |
    ⟨mode, rest, hrest, hlength, hzero, hone⟩
  · rw [(firstList_ending hlist).2, endList_listed hlisted hnone]
    exact if_pos (Or.inr hother)
  · rw [tlsList_ending hlist, endList_listed hlisted hnone]
  · have hmode : ∀ n : Nat, ByteOrder.big.decodeInt mode = n → mode = ByteOrder.big.encode 4 n := by
      intro n hn
      have hbytes := ByteOrder.eq_encode_of_decodeInt hn
      rwa [hlength] at hbytes
    have hlong : ¬ (mode ++ rest).length < 4 := by
      rw [List.length_append]
      omega
    rw [authStream_ending hrest, endAuth, if_neg hlong, List.take_left' hlength]
    exact (if_neg fun h => hone (hmode 1 h)).trans (if_neg fun h => hzero (hmode 0 h))

theorem LongReason.ending (h : server.LongReason) : server.ending = .overrun := by
  obtain ⟨len, hlen, hneg, text, htext, hlist⟩ := h
  have hover : Overruns (ByteOrder.big.encode 4 len ++ text) :=
    (overruns_iff _).mpr ⟨len, hlen, hneg, text, htext, rfl⟩
  have hreason : server.ending = endReason true 0 (ByteOrder.big.encode 4 len ++ text) := tlsList_ending hlist
  rcases endReason_cases 0 (ByteOrder.big.encode 4 len ++ text) with ⟨-, hending⟩ | ⟨hfits, -⟩
  · exact hreason.trans hending
  · exact absurd hover hfits

theorem StopsLate.ending (h : server.StopsLate) : server.LongReason ∨ ∃ c, server.ending = .failed 0 c := by
  rcases h with ⟨list, hlist, hcut, hnone⟩ | ⟨hwants, hlater⟩ | ⟨rest, hrest⟩
  · exact Or.inr ⟨readFail, (firstList_ending hlist).2.trans (endList_cut hcut hnone)⟩
  · obtain ⟨-, hending⟩ := wantsTls_ending hwants
    by_cases hwrites : server.writes - 1 = 0
    · exact Or.inr ⟨writeFail, hending.trans (if_pos hwrites)⟩
    cases hplain : server.tls with
    | none =>
      rw [hplain] at hending
      exact Or.inr ⟨tlsFail, hending.trans (if_neg hwrites)⟩
    | some list =>
      have htls : server.TlsList list := ⟨hwants, by omega, hplain⟩
      have hending := tlsList_ending htls
      rcases list_cases list with rfl | ⟨rest, rfl⟩ | hwin | ⟨hcut, hnone⟩ | ⟨hlisted, -⟩
      · exact Or.inr ⟨readFail, hending⟩
      · rcases endReason_cases 0 rest with ⟨hover, -⟩ | ⟨-, c, -, hreason⟩
        · obtain ⟨len, hlen, hneg, text, htext, rfl⟩ := (overruns_iff rest).mp hover
          exact Or.inl ⟨len, hlen, hneg, text, htext, htls⟩
        · exact Or.inr ⟨c, hending.trans hreason⟩
      · exact absurd ⟨list, htls, Or.inl hwin⟩ hlater
      · exact Or.inr ⟨readFail, hending.trans (endList_cut hcut hnone)⟩
      · exact absurd ⟨list, htls, Or.inr hlisted⟩ hlater
  · obtain ⟨c, -, hreason⟩ := endReason_plain 0 rest
    exact Or.inr ⟨c, (authStream_ending hrest).trans hreason⟩

theorem ending_cases (server : Server) :
    server.Wins ∨ server.RequiresAuth ∨ server.StopsLate ∨
      server.ending = .silent ∨ ∃ c, Failure c ∧ server.ending = .failed (-1) c := by
  rcases stream_cases server with hnone | ⟨list, hlist⟩ | ⟨rest, hrest⟩
  · exact Or.inr (Or.inr (Or.inr (unanswered_ending hnone)))
  · have hending := (firstList_ending hlist).2
    rcases list_cases list with rfl | ⟨rest, rfl⟩ | hwin | hcut | ⟨hlisted, hnone⟩
    · exact Or.inr (Or.inr (Or.inr (Or.inr ⟨readFail, by simp [Failure], hending⟩)))
    · obtain ⟨c, hc, hreason⟩ := endReason_plain (-1) rest
      exact Or.inr (Or.inr (Or.inr (Or.inr ⟨c, hc, hending.trans hreason⟩)))
    · exact Or.inl (Or.inl ⟨list, hlist, hwin⟩)
    · exact Or.inr (Or.inr (Or.inl (Or.inl ⟨list, hlist, hcut⟩)))
    by_cases hother : ∃ t ∈ typesIn list, t ≠ Rfb.tls
    · exact Or.inr (Or.inl (Or.inl ⟨list, hlist, hlisted, hnone, hother⟩))
    have hwants : server.WantsTls := ⟨list, hlist, hlisted, by simpa using hother⟩
    by_cases hlater : ∃ list, server.TlsList list ∧ (1 ∈ typesIn list ∨ Listed list)
    · obtain ⟨list, htls, hlist⟩ := hlater
      by_cases hwin : 1 ∈ typesIn list
      · exact Or.inl (Or.inr (Or.inl ⟨list, htls, hwin⟩))
      · exact Or.inr (Or.inl (Or.inr (Or.inl ⟨list, htls, hlist.resolve_left hwin, hwin⟩)))
    · exact Or.inr (Or.inr (Or.inl (Or.inr (Or.inl ⟨hwants, hlater⟩))))
  · by_cases hshort : rest.length < 4
    · exact Or.inr (Or.inr (Or.inr (Or.inr ⟨readFail, by simp [Failure],
        (authStream_ending hrest).trans (if_pos hshort)⟩)))
    have hmode : (rest.take 4).length = 4 := by
      rw [List.length_take]
      omega
    rw [← List.take_append_drop 4 rest] at hrest
    by_cases hone : rest.take 4 = [0, 0, 0, 1]
    · exact Or.inl (Or.inr (Or.inr ⟨rest.drop 4, hone ▸ hrest⟩))
    by_cases hzero : rest.take 4 = [0, 0, 0, 0]
    · exact Or.inr (Or.inr (Or.inl (Or.inr (Or.inr ⟨rest.drop 4, hzero ▸ hrest⟩))))
    · exact Or.inr (Or.inl (Or.inr (Or.inr ⟨_, _, hrest, hmode, hzero, hone⟩)))

theorem ending_overrun_iff (server : Server) : server.ending = .overrun ↔ server.LongReason := by
  refine ⟨fun hover => ?_, LongReason.ending⟩
  have hne : ∀ e, server.ending = e → e ≠ .overrun → server.LongReason :=
    fun e he hne => absurd (he.symm.trans hover) hne
  rcases server.ending_cases with hwins | hauth | hstops | hsilent | ⟨c, -, hfailed⟩
  · exact hne _ hwins.ending (by simp)
  · exact hne _ hauth.ending (by simp)
  · rcases hstops.ending with hlong | ⟨c, hfailed⟩
    · exact hlong
    · exact hne _ hfailed (by simp)
  · exact hne _ hsilent (by simp)
  · exact hne _ hfailed (by simp)

end Server

/-! ### The classification -/

/-- `check_vnc` returns, and what it returns and logs says what the server is. -/
def Classified (server : Server) : Prop :=
  ∃ s, checkVnc server.sock server.start = .ok () s ∧
    (s.ret = 1 ↔ win ∈ s.marks) ∧
    (win ∈ s.marks ↔ server.Wins) ∧
    (s.ret = 0 → server.RequiresAuth) ∧
    (∀ c ∈ s.marks, Failure c → s.ret = -1) ∧
    s.marks.length ≤ 1

theorem returns_of_ending {server : Server} {e : Ending} (hending : server.ending = e) (hne : e ≠ .overrun) :
    ∃ s, checkVnc server.sock server.start = .ok () s ∧ Ended e s := by
  have hends := checkVnc_ends server server.start rfl
  rw [hending] at hends
  cases hrun : checkVnc server.sock server.start with
  | ok _ s =>
    rw [hrun] at hends
    exact ⟨s, rfl, hends⟩
  | error label s =>
    rw [hrun] at hends
    exact absurd hends hne

/-- `check_vnc` leaves its buffer, and does not return, just for a long reason in TLS. -/
theorem returns_iff (server : Server) :
    (∃ s, checkVnc server.sock server.start = .ok () s) ↔ ¬ server.LongReason := by
  rw [← server.ending_overrun_iff]
  refine ⟨fun ⟨s, hrun⟩ hover => ?_, fun hover => ?_⟩
  · have hends := checkVnc_ends server server.start rfl
    rw [hrun, hover] at hends
    exact hends
  · obtain ⟨s, hrun, -⟩ := @returns_of_ending server _ rfl hover
    exact ⟨s, hrun⟩

theorem classified_iff (server : Server) : Classified server ↔ ¬ server.StopsLate := by
  constructor
  · rintro ⟨s, hrun, -, -, hauth, -, -⟩ hlate
    have hends := checkVnc_ends server server.start rfl
    rw [hrun] at hends
    rcases hlate.ending with hlong | ⟨c, hending⟩
    · rw [hlong.ending] at hends
      exact hends
    · rw [hending] at hends
      have hrequires := (hauth hends.1).ending
      rw [hending] at hrequires
      cases hrequires
  · intro hlate
    have hwin : ∀ s : Session, server.ending ≠ .win → win ∉ s.marks → (win ∈ s.marks ↔ server.Wins) :=
      fun s hne hmarks => ⟨fun h => absurd h hmarks, fun h => absurd h.ending hne⟩
    rcases server.ending_cases with hwins | hauth | hstops | hsilent | ⟨c, hc, hfailed⟩
    · obtain ⟨s, hrun, hret, hmarks⟩ := returns_of_ending hwins.ending (by simp)
      refine ⟨s, hrun, ?_⟩
      rw [hret, hmarks]
      refine ⟨by simp, by simp [hwins], by simp, ?_, by simp⟩
      intro c hmem hc
      exact absurd (List.mem_singleton.mp hmem) hc.ne_win
    · obtain ⟨s, hrun, hret, hmarks⟩ := returns_of_ending hauth.ending (by simp)
      have hwins := hwin s (by simp [hauth.ending]) (by simp [hmarks])
      exact ⟨s, hrun, by simp [hret, hmarks], hwins, fun _ => hauth, by simp [hmarks], by simp [hmarks]⟩
    · exact absurd hstops hlate
    · obtain ⟨s, hrun, hret, hmarks⟩ := returns_of_ending hsilent (by simp)
      have hwins := hwin s (by simp [hsilent]) (by simp [hmarks])
      exact ⟨s, hrun, by simp [hret, hmarks], hwins, by simp [hret], by simp [hmarks], by simp [hmarks]⟩
    · obtain ⟨s, hrun, hret, hmarks⟩ := returns_of_ending hfailed (by simp)
      have hwins := hwin s (by simp [hfailed]) (by simp [hmarks, hc.ne_win.symm])
      exact ⟨s, hrun, by simp [hret, hmarks, hc.ne_win.symm], hwins, by simp [hret],
        fun _ _ _ => hret, by simp [hmarks]⟩

/-- A server that lists two security types, sends one of them and closes the connection. -/
def stopsInList : Server where
  sock := 3
  sent := ofChars "RFB 003.008\n".toList ++ [2, 2]
  tls := none
  writes := 1

theorem stopsInList_misclassified :
    stopsInList.session.ret = 0 ∧ stopsInList.session.marks = [readFail] ∧ ¬ Classified stopsInList := by
  have hret : stopsInList.session.ret = 0 := by decide +kernel
  have hmarks : stopsInList.session.marks = [readFail] := by decide +kernel
  refine ⟨hret, hmarks, ?_⟩
  rintro ⟨s, hrun, -, -, -, hfails, -⟩
  have hs : stopsInList.session = s := by rw [Server.session, hrun, final]
  rw [hs] at hret hmarks
  have hneg := hfails readFail (by simp [hmarks]) (Or.inl rfl)
  rw [hret] at hneg
  cases hneg

end Cscan.Rfb
