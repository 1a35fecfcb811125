import HttpServer.Parse.Linewise
import HttpServer.Proofs.Grammar

/-!
# What a line means to the parser that reads lines

The parser that reads whole lines cuts them with `splitAtByte?` and judges the parts. It
takes a start line exactly if the line is the start line of the grammar
(`LineParser.startLine_eq_ok_iff`) and a header line exactly if it is one of the grammar
(`LineParser.headerLine_eq_ok_iff`). Every other line is rejected with the code of its kind.
-/

namespace HttpServer

namespace LineParser

/-! ## Start lines -/

theorem inStartLine_versionFault (l : Bytes) : (versionFault l).inStartLine = true := by
  unfold versionFault
  repeat' split
  all_goals rfl

theorem startLine_startLine {method : Method} {path : Bytes} (hm : method ∈ Method.named)
    (hp : Message.ValidPath path) :
    startLine (Message.startLine method path) = .ok (Message.startRequest method path) := by
  have hsp : sp ∉ method.token := not_mem_of_class (by decide) Method.token_alpha
  have hsp' : sp ∉ path := not_mem_of_class (by decide) hp.bytes
  have hline : Message.startLine method path =
      method.token ++ sp :: (path ++ sp :: versionLine) := by
    simp [Message.startLine, versionLine, ByteParser.version]
  have hhead : (Message.startLine method path).head?.map isAlpha = some true := by
    obtain ⟨b, t, ht⟩ := List.exists_cons_of_ne_nil (Method.token_ne_nil (m := method))
    have := Method.token_alpha (m := method) b (by simp [ht])
    simp [Message.startLine, ht, this]
  have hslash : (path ++ sp :: versionLine).head? = some slash := by
    rw [List.head?_append, hp.head]
    rfl
  have hnamed : method ≠ .invalid := fun h => Method.invalid_not_mem_named (h ▸ hm)
  rw [startLine, hhead, if_neg (by simp), hline, splitAtByte?_append hsp]
  simp only [Method.ofToken_token hm]
  rw [if_neg (by simpa [hnamed] using Method.token_alpha), if_neg (by simp [hslash]),
    splitAtByte?_append hsp']
  simp only
  rw [if_neg (by simpa using hp.bytes), if_neg (by simp)]
  rfl

/-- A start line is taken exactly if it is one of the grammar. -/
theorem startLine_eq_ok_iff {line : Bytes} {r : Request} :
    startLine line = .ok r ↔ ∃ method path, method ∈ Method.named ∧ Message.ValidPath path ∧
      line = Message.startLine method path ∧ r = Message.startRequest method path := by
  constructor
  · intro h
    unfold startLine at h
    repeat' split at h
    all_goals try contradiction
    rename_i token rest hline htoken hslash _ path version hrest hpath hversion
    obtain ⟨rfl, -⟩ := splitAtByte?_eq_some hline
    obtain ⟨rfl, -⟩ := splitAtByte?_eq_some hrest
    obtain rfl := not_not.1 hversion
    rw [not_or] at htoken
    obtain ⟨hm, ht⟩ := Method.of_ofToken_ne_invalid htoken.2
    obtain ⟨b, t, rfl⟩ := List.exists_cons_of_ne_nil (l := path) fun h0 =>
      hslash (by subst h0; decide)
    refine ⟨_, _, hm, ⟨by simpa using hslash, by simpa using hpath⟩, ?_, (Except.ok.inj h).symm⟩
    simp [Message.startLine, ht, versionLine, ByteParser.version]
  · rintro ⟨method, path, hm, hp, rfl, rfl⟩
    exact startLine_startLine hm hp

theorem code_startLine {line : Bytes} {e : ParseError} (h : startLine line = .error e) :
    e.code = -2 := by
  unfold startLine at h
  repeat' split at h
  all_goals cases h
  all_goals apply ParseError.code_atState_startLine
  all_goals first
    | rfl
    | exact inStartLine_versionFault _

/-! ## Header lines -/

theorem dropLineEnd?_append (l : Bytes) : dropLineEnd? (l ++ crlf) = some l := by
  simp [dropLineEnd?, crlf]

theorem eq_of_dropLineEnd? {line l : Bytes} (h : dropLineEnd? line = some l) :
    line = l ++ crlf := by
  unfold dropLineEnd? at h
  split at h
  · rename_i hs
    obtain ⟨t, rfl⟩ := List.isSuffixOf_iff_suffix.1 hs
    simpa [crlf] using h
  · contradiction

theorem headerLine_render {h : HeaderLine} (hh : h.Valid) (r : Request) :
    headerLine r h.render = .ok (r.withHeader h.key h.value) := by
  have hcolon : colon ∉ h.key := not_mem_of_class (by decide) hh.key_bytes
  obtain ⟨b, t, hv⟩ := List.exists_cons_of_ne_nil hh.value_ne_nil
  have hb : isValueByte b = true := hh.value_bytes b (by simp [hv])
  have hline : h.render = (h.key ++ colon :: (sp :: h.value)) ++ crlf := by
    simp [HeaderLine.render]
  rw [headerLine, hline, dropLineEnd?_append]
  simp only [splitAtByte?_append hcolon]
  rw [if_neg (by simpa [hh.key_ne_nil] using hh.key_bytes), if_neg (by simp),
    if_neg (by simp [hv, hb]), if_neg (by simpa using hh.value_bytes), hh.setHeader? r]

/-- A header line is taken exactly if it is one of the grammar. -/
theorem headerLine_eq_ok_iff {line : Bytes} {r r' : Request} :
    headerLine r line = .ok r' ↔
      ∃ h : HeaderLine, h.Valid ∧ line = h.render ∧ r' = r.withHeader h.key h.value := by
  constructor
  · intro h
    unfold headerLine at h
    repeat' split at h
    all_goals try contradiction
    rename_i content hend _ key hkey _ b value hcut hsp hfirst hvalue _ r'' hset
    obtain rfl := eq_of_dropLineEnd? hend
    obtain ⟨rfl, -⟩ := splitAtByte?_eq_some hcut
    obtain rfl := not_not.1 hsp
    obtain ⟨hne, hkey⟩ := not_or.1 hkey
    have hv : value ≠ [] := fun h0 => hfirst (by simp [h0])
    have hs : r.setHeader? (HeaderLine.mk key value).key (HeaderLine.mk key value).value =
        some r'' := hset
    rw [HeaderLine.setHeader?_eq_some_iff hv] at hs
    refine ⟨⟨key, value⟩, ⟨hne, by simpa using hkey, hv, by simpa using hvalue, hs.1⟩, ?_, ?_⟩
    · simp [HeaderLine.render]
    · rw [← Except.ok.inj h, hs.2]
  · rintro ⟨h, hh, rfl, rfl⟩
    exact headerLine_render hh r

theorem code_headerLine {line : Bytes} {r : Request} {e : ParseError}
    (h : headerLine r line = .error e) : e.code = -3 := by
  unfold headerLine at h
  repeat' split at h
  all_goals cases h
  all_goals rfl

end LineParser

end HttpServer
