import RaftKv.Codec

/-! The section that a line leads to is the handler of its tag, whatever the fields of the line are.
The fields of `JOIN`, `PEER` and `LEAVE` lines come back as they were written. -/

namespace RaftKv

open Stdio

theorem isTag_join : IsTag (bytes "JOIN") := isToken_of_isValidToken (by decide)
theorem isTag_peer : IsTag (bytes "PEER") := isToken_of_isValidToken (by decide)
theorem isTag_leave : IsTag (bytes "LEAVE") := isToken_of_isValidToken (by decide)

def Line.tag : Line → Text
  | .rv .. => bytes "RV"
  | .rvr .. => bytes "RVR"
  | .ae .. => bytes "AE"
  | .aer .. => bytes "AER"
  | .join .. => bytes "JOIN"
  | .peer .. => bytes "PEER"
  | .leave _ => bytes "LEAVE"
  | .cl .. => bytes "CL"

/-- The tag of the lines that a section handles. -/
def Section.tag : Section → Text
  | .handleRequestVote .. => bytes "RV"
  | .handleRequestVoteResponse .. => bytes "RVR"
  | .handleAppendEntries .. => bytes "AE"
  | .handleAppendResponse .. => bytes "AER"
  | .handleJoin .. => bytes "JOIN"
  | .handlePeerAnnounce .. => bytes "PEER"
  | .handleLeave _ => bytes "LEAVE"
  | .handleClientForward .. => bytes "CL"
  | _ => []

variable {line : Line} {sec : Section}

theorem Line.isTag (line : Line) : IsTag line.tag := by
  cases line with
  | rv => exact isTag_rv
  | rvr => exact isTag_rvr
  | ae => exact isTag_ae
  | aer => exact isTag_aer
  | join => exact isTag_join
  | peer => exact isTag_peer
  | leave => exact isTag_leave
  | cl => exact isTag_cl

theorem snprintf_tag {tag : Text} {f : String} {fmt : List Directive} {args : List Arg}
    (hf : format f.toList = tag.map .lit ++ .lit 32 :: fmt) :
    snprintf raftMaxLine f args = (tag ++ 32 :: printf fmt args).take (raftMaxLine - 1) := by
  rw [snprintf, hf, printf_lits]
  rfl

/-- A line starts with its tag and a blank. -/
theorem Line.wire_tag (line : Line) :
    ∃ t, line.wire = (line.tag ++ 32 :: t).take (raftMaxLine - 1) := by
  cases line with
  | rv => exact ⟨_, @snprintf_tag (bytes "RV") _ _ _ rfl⟩
  | rvr => exact ⟨_, @snprintf_tag (bytes "RVR") _ _ _ rfl⟩
  | ae t l p pt lc entry =>
    cases entry with
    | none => exact ⟨_, @snprintf_tag (bytes "AE") _ _ _ rfl⟩
    | some e => exact ⟨_, @snprintf_tag (bytes "AE") _ _ _ rfl⟩
  | aer => exact ⟨_, @snprintf_tag (bytes "AER") _ _ _ rfl⟩
  | join => exact ⟨_, @snprintf_tag (bytes "JOIN") _ _ _ rfl⟩
  | peer => exact ⟨_, @snprintf_tag (bytes "PEER") _ _ _ rfl⟩
  | leave => exact ⟨_, @snprintf_tag (bytes "LEAVE") _ _ _ rfl⟩
  | cl => exact ⟨_, @snprintf_tag (bytes "CL") _ _ _ rfl⟩

/-- `raft_handle_line` calls the handler of the tag. -/
theorem raftHandleLine_tag {text : Text} (h : raftHandleLine text = some sec) :
    sscanf (format "%7s".toList) text = [.s sec.tag] := by
  obtain ⟨_, _, _, htag, -, call⟩ := handlerCall h
  rw [htag]
  cases call <;> rfl

theorem Line.handler_tag (h : line.handler = some sec) : sec.tag = line.tag := by
  obtain ⟨text, htext, h⟩ := Option.bind_eq_some_iff.mp h
  obtain ⟨t, hwire⟩ := line.wire_tag
  have hshort : line.tag.length < raftMaxLine - 1 := line.isTag.fits.trans_lt (by decide)
  rw [hwire] at htext
  obtain hnone | ⟨t', hsome⟩ := @received_blank _ t line.isTag.printable.newline hshort
  · cases hnone.symm.trans htext
  obtain rfl := Option.some.inj (hsome.symm.trans htext)
  have hblank : ∀ c ∈ (32 :: t').head?, isspace c = true := by
    intro c hc
    obtain rfl : c = 32 := by simpa using hc.symm
    decide
  have htype := (raftHandleLine_tag h).symm.trans (sscanf_type line.isTag hblank)
  exact Arg.s.inj (List.cons.inj htype).1

theorem Line.ae_of_handler {t l p pt lc has : ℕ} {d : RaftLogEntry}
    (h : line.handler = some (.handleAppendEntries t l p pt lc has d)) :
    ∃ t' l' p' pt' lc' entry, line = .ae t' l' p' pt' lc' entry := by
  have htag : bytes "AE" = line.tag := Line.handler_tag h
  cases line with
  | ae t' l' p' pt' lc' entry => exact ⟨t', l', p', pt', lc', entry, rfl⟩
  | _ => exact absurd htag (by simp only [Line.tag]; decide)

/-! ### Membership lines -/

section Address

variable {tag host : Text} {id port : ℕ} (htag : IsTag tag) (hid : id < 2 ^ 32)
  (hhost : IsToken 63 host) (hport : port < 2 ^ 16)
include htag hid hhost hport

theorem received_address {f : String} (hf : format f.toList = tag.map .lit ++
      (fieldDirectives 1 ++ .lit 32 :: .s none :: (fieldDirectives 1 ++ [.lit 10]))) :
    received (snprintf raftMaxLine f [.u id, .s host, .u port]) =
      some (tag ++ (fields [id] ++ 32 :: (host ++ fields [port]))) := by
  have hport' : port < 2 ^ 32 := hport.trans (by norm_num)
  have hw : printf (format f.toList) [.u id, .s host, .u port] =
      (tag ++ (fields [id] ++ 32 :: (host ++ fields [port]))) ++ [10] := by
    have h1 := printf_fields [id] (.lit 32 :: .s none :: (fieldDirectives 1 ++ [.lit 10]))
      [.s host, .u port]
    have h2 := printf_fields [port] [.lit 10] []
    simp only [List.map_cons, List.map_nil, List.cons_append, List.nil_append, List.length_cons,
      List.length_nil, Nat.zero_add] at h1 h2
    rw [hf, printf_lits, h1, printf, printf, h2, List.append_assoc, List.append_assoc,
      List.cons_append, List.append_assoc]
    rfl
  have hlen1 : (tag ++ fields [id]).length < 100 :=
    length_header_lt htag (by simpa [Fits] using hid) (by simp)
  have hlen2 : (fields [port]).length ≤ 11 * 1 := length_fields_le (by simpa using hport')
  have hlen3 := hhost.fits
  have hplain : Printable (tag ++ (fields [id] ++ 32 :: (host ++ fields [port]))) :=
    htag.printable.append ((printable_fields _).append
      ((printable_of_solid hhost.solid).append (printable_fields _)).blank)
  rw [snprintf, hw]
  refine received_line hplain ?_
  simp only [List.length_append, List.length_cons, raftMaxLine] at *
  omega

theorem sscanf_address {f : String} (hf : format f.toList = tag.map .lit ++
      (fieldDirectives 1 ++ .lit 32 :: .s (some 63) :: fieldDirectives 1)) :
    sscanf (format f.toList) (tag ++ (fields [id] ++ 32 :: (host ++ fields [port]))) =
      [.u id, .s host, .u port] := by
  have hport' : port < 2 ^ 32 := hport.trans (by norm_num)
  have hid' : Fits [id] := by simpa [Fits] using hid
  have hlast := @sscanf_fields [port] [] [] (by simpa using hport') stops_nil
  rw [List.append_nil, List.append_nil] at hlast
  have hfields := @sscanf_fields [id] (.lit 32 :: .s (some 63) :: fieldDirectives 1)
    (32 :: (host ++ fields [port])) hid' (stops_blank _)
  have htoken := @sscanf_token 63 host (fields [port]) (fieldDirectives 1) hhost (blank_fields _)
  simp only [List.length_cons, List.length_nil, Nat.zero_add] at hfields hlast
  rw [hf, sscanf_lits htag.solid, hfields, htoken, hlast]
  rfl

end Address

theorem Line.handler_join {id port : ℕ} {host : Text} (hid : id < 2 ^ 32) (hhost : IsToken 63 host)
    (hport : port < 2 ^ 16) :
    (Line.join id host port).handler = some (.handleJoin id host port) := by
  have hblank := blank_fields_append [id] (host ++ fields [port])
  rw [Line.handler, Line.wire, received_address isTag_join hid hhost hport rfl, Option.bind_some,
    raftHandleLine, sscanf_type isTag_join hblank]
  simp only [show bytes "JOIN" ≠ bytes "RV" by decide, show bytes "JOIN" ≠ bytes "RVR" by decide,
    show bytes "JOIN" ≠ bytes "AE" by decide, show bytes "JOIN" ≠ bytes "AER" by decide, if_true,
    if_false, @sscanf_address (bytes "JOIN") host id port isTag_join hid hhost hport
      "JOIN %u %63s %u" rfl]
  rw [if_pos (by omega)]

theorem Line.handler_peer {id port : ℕ} {host : Text} (hid : id < 2 ^ 32) (hhost : IsToken 63 host)
    (hport : port < 2 ^ 16) :
    (Line.peer id host port).handler = some (.handlePeerAnnounce id host port) := by
  have hblank := blank_fields_append [id] (host ++ fields [port])
  rw [Line.handler, Line.wire, received_address isTag_peer hid hhost hport rfl, Option.bind_some,
    raftHandleLine, sscanf_type isTag_peer hblank]
  simp only [show bytes "PEER" ≠ bytes "RV" by decide, show bytes "PEER" ≠ bytes "RVR" by decide,
    show bytes "PEER" ≠ bytes "AE" by decide, show bytes "PEER" ≠ bytes "AER" by decide,
    show bytes "PEER" ≠ bytes "JOIN" by decide, if_true, if_false,
    @sscanf_address (bytes "PEER") host id port isTag_peer hid hhost hport
      "PEER %u %63s %u" rfl]
  rw [if_pos (by omega)]

theorem Line.handler_leave {id : ℕ} (hid : id < 2 ^ 32) :
    (Line.leave id).handler = some (.handleLeave id) := by
  have hfit : Fits [id] := by simpa [Fits] using hid
  have hw : received (Line.leave id).wire = some (bytes "LEAVE" ++ fields [id]) :=
    @received_numbers _ [id] _ isTag_leave hfit (by simp) rfl
  rw [Line.handler, hw, Option.bind_some, raftHandleLine, sscanf_type isTag_leave (blank_fields _)]
  simp only [show bytes "LEAVE" ≠ bytes "RV" by decide, show bytes "LEAVE" ≠ bytes "RVR" by decide,
    show bytes "LEAVE" ≠ bytes "AE" by decide, show bytes "LEAVE" ≠ bytes "AER" by decide,
    show bytes "LEAVE" ≠ bytes "JOIN" by decide, show bytes "LEAVE" ≠ bytes "PEER" by decide,
    if_true, if_false, @sscanf_numbers _ [id] "LEAVE %u" isTag_leave hfit rfl, List.map]

end RaftKv
