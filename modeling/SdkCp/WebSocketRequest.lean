import Mathlib.Tactic
import Mathlib.Data.List.TakeWhile

/-! `parse_websocket_request` of websocket.cpp: the request is copied into a buffer, cut into
lines by `strtok` and the headers by writing over their colons. Positions stand for pointers
into the buffer. -/
namespace SdkCp
namespace WebSocket

structure WsReqT where
  req : List UInt8
  connection : List UInt8
  upgrade : List UInt8
  host : List UInt8
  origin : List UInt8
  cookie : List UInt8
  secWebsocketKey : List UInt8
  secWebsocketVersion : List UInt8

def bytesOf (s : String) : List UInt8 := s.toList.map fun c => UInt8.ofNat c.toNat

/-! The C library -/

/-- The string at `p`. -/
def cstr (buf : List UInt8) (p : ℕ) : List UInt8 := (buf.drop p).takeWhile (· ≠ 0)

def isDelim (b : UInt8) : Bool := b = 13 || b = 10

/-- `strtok` with the delimiters `"\r\n"`, going on at `i`: where the token starts, the buffer
in which it is terminated, and where the next call goes on. -/
def strtok (buf : List UInt8) (i : ℕ) : Option (ℕ × List UInt8 × ℕ) :=
  let p := i+((buf.drop i).takeWhile isDelim).length
  if buf.getD p 0 = 0 then none
  else
    let e := p+((cstr buf p).takeWhile (!isDelim ·)).length
    if buf.getD e 0 = 0 then some (p,buf,e) else some (p,buf.set e 0,e+1)

/-- `strstr(p, ":")`. -/
def strstrColon (buf : List UInt8) (p : ℕ) : Option ℕ :=
  if 58 ∈ cstr buf p then some (p+((cstr buf p).takeWhile (· ≠ 58)).length) else none

def toLower (b : UInt8) : UInt8 := if 65 ≤ b ∧ b ≤ 90 then b+32 else b

def stricmp (s t : List UInt8) : Bool := s.map toLower == t.map toLower

/-! websocket.cpp -/

/-- `while (*++q == ' ');`. -/
def skipBlanks (buf : List UInt8) (q : ℕ) : ℕ := q+1+((buf.drop (q+1)).takeWhile (· = 32)).length

/-- One of the header branches, which stores the string at `q+extra`. -/
def storeHeader (name : String) (extra : ℕ) (set : WsReqT → List UInt8 → WsReqT)
    (buf : List UInt8) (p : ℕ) (s : ℕ × WsReqT) : ℕ × WsReqT :=
  if stricmp (cstr buf p) (bytesOf name) then
    let q := skipBlanks buf s.1
    (q,set s.2 (cstr buf (q+extra)))
  else s

def storeConnection := storeHeader "Connection" 0 fun r v => { r with connection := v }
def storeUpgrade := storeHeader "Upgrade" 0 fun r v => { r with upgrade := v }
def storeHost := storeHeader "Host" 1 fun r v => { r with host := v }
def storeOrigin := storeHeader "Origin" 0 fun r v => { r with origin := v }
def storeCookie := storeHeader "Cookie" 0 fun r v => { r with cookie := v }
def storeSecWebsocketKey :=
  storeHeader "Sec-WebSocket-Key" 0 fun r v => { r with secWebsocketKey := v }
def storeSecWebsocketVersion :=
  storeHeader "Sec-WebSocket-Version" 0 fun r v => { r with secWebsocketVersion := v }

/-- The body of the loop for the line at `p`. -/
def parseLine (buf : List UInt8) (p : ℕ) (req : WsReqT) : List UInt8 × WsReqT :=
  match strstrColon buf p with
  | none => (buf,req)
  | some q =>
    let buf := buf.set q 0
    let s := storeConnection buf p (q,req)
    let s := storeUpgrade buf p s
    let s := storeHost buf p s
    let s := storeOrigin buf p s
    let s := storeCookie buf p s
    let s := storeSecWebsocketKey buf p s
    let s := storeSecWebsocketVersion buf p s
    (buf,s.2)

theorem strtok_next {buf buf' : List UInt8} {i p j : ℕ} (h : strtok buf i = some (p,buf',j)) :
    buf'.length = buf.length ∧ i < j ∧ j ≤ buf.length := by
  unfold strtok at h
  set k := ((buf.drop i).takeWhile isDelim).length with hk
  have hdrop : buf.drop (i+k) = (buf.drop i).dropWhile isDelim := by
    nth_rewrite 1 [← List.drop_drop,← List.takeWhile_append_dropWhile (l:=buf.drop i) (p:=isDelim)]
    exact List.drop_left
  simp only at h
  split at h
  · simp at h
  · rename_i hp
    have hhead : buf.getD (i+k) 0 = (buf.drop (i+k)).headD 0 := by
      rw [List.getD_eq_getElem?_getD,List.headD_eq_head?_getD,List.head?_drop]
    rw [hhead] at hp
    have hle : ((cstr buf (i+k)).takeWhile (!isDelim ·)).length ≤ (buf.drop (i+k)).length :=
      (List.takeWhile_prefix _).length_le.trans (List.takeWhile_prefix _).length_le
    cases hrest : buf.drop (i+k) with
    | nil => simp [hrest] at hp
    | cons b bs =>
      have hb : isDelim b = false := by
        have := List.head?_dropWhile_not isDelim (buf.drop i)
        simpa [← hdrop,hrest] using this
      have hb₀ : b ≠ 0 := by simpa [hrest] using hp
      -- a token has at least one character
      have hpos : 0 < ((cstr buf (i+k)).takeWhile (!isDelim ·)).length := by
        simp [cstr,hrest,hb,hb₀]
      rw [List.length_drop] at hle
      have hlen : 0 < (buf.drop (i+k)).length := by simp [hrest]
      rw [List.length_drop] at hlen
      split at h
      · obtain ⟨-,rfl,rfl⟩ := by simpa using h
        omega
      · rename_i he
        obtain ⟨-,rfl,rfl⟩ := by simpa using h
        refine ⟨by simp,by omega,?_⟩
        by_contra hgt
        rw [List.getD_eq_getElem?_getD,List.getElem?_eq_none (by omega)] at he
        exact he rfl

theorem parseLine_length (buf : List UInt8) (p : ℕ) (req : WsReqT) :
    (parseLine buf p req).1.length = buf.length := by
  unfold parseLine
  split <;> simp

/-- The loop over the lines behind the request line. -/
def parseLines (buf : List UInt8) (i : ℕ) (req : WsReqT) : WsReqT :=
  match _h : strtok buf i with
  | none => req
  | some (p,buf',j) => parseLines (parseLine buf' p req).1 j (parseLine buf' p req).2
termination_by buf.length-i
decreasing_by
  have hlen := parseLine_length buf' p req
  have hnext := strtok_next _h
  omega

def parseWebsocketRequest (sReq : Option (List UInt8)) (wsReq : Option WsReqT) : ℤ × Option WsReqT :=
  match sReq,wsReq with
  | some s,some req =>
    match strtok (s.takeWhile (· ≠ 0) ++ [0]) 0 with
    | none => (0,some req)
    | some (p,buf,i) => (0,some (parseLines buf i { req with req := cstr buf p }))
  | _,_ => (-1,wsReq)

/-- A line without its end. -/
structure Line where
  bytes : List UInt8
  clean : ∀ b ∈ bytes, b ≠ 0 ∧ isDelim b = false

def Line.crlf (l : Line) : List UInt8 := l.bytes ++ [13,10]

/-- A request line and header lines, among them the empty line of the end. -/
structure Request where
  requestLine : Line
  nonempty : requestLine.bytes ≠ []
  lines : List Line

def Request.text (r : Request) : List UInt8 := r.requestLine.crlf ++ r.lines.flatMap Line.crlf

/-- The headers of a `ws_req_t`. -/
inductive Header
  | connection | upgrade | host | origin | cookie | secWebsocketKey | secWebsocketVersion
  deriving DecidableEq

namespace Header

def name : Header → String
  | connection => "Connection"
  | upgrade => "Upgrade"
  | host => "Host"
  | origin => "Origin"
  | cookie => "Cookie"
  | secWebsocketKey => "Sec-WebSocket-Key"
  | secWebsocketVersion => "Sec-WebSocket-Version"

def all : List Header :=
  [connection,upgrade,host,origin,cookie,secWebsocketKey,secWebsocketVersion]

/-- The header a name stands for, in any letter case. -/
def ofName (n : List UInt8) : Option Header := all.find? fun h => stricmp n (bytesOf h.name)

theorem mem_all (h : Header) : h ∈ all := by cases h <;> decide

theorem name_inj : ∀ h h' : Header,
    (bytesOf h.name).map toLower = (bytesOf h'.name).map toLower → h = h' := by
  intro h h'
  cases h <;> cases h' <;> decide

theorem stricmp_name (n : List UInt8) (h : Header) :
    stricmp n (bytesOf h.name) = decide (ofName n = some h) := by
  rw [Bool.eq_iff_iff,decide_eq_true_iff]
  constructor
  · intro hn
    cases hfind : ofName n with
    | none =>
      have := List.find?_eq_none.mp hfind h (mem_all h)
      exact absurd hn this
    | some h' =>
      have hn' := List.find?_some hfind
      simp only [stricmp,beq_iff_eq] at hn hn'
      rw [name_inj h' h (hn'.symm.trans hn)]
  · intro hfind
    have hn := List.find?_some hfind
    exact hn

end Header

def WsReqT.get (r : WsReqT) : Header → List UInt8
  | .connection => r.connection
  | .upgrade => r.upgrade
  | .host => r.host
  | .origin => r.origin
  | .cookie => r.cookie
  | .secWebsocketKey => r.secWebsocketKey
  | .secWebsocketVersion => r.secWebsocketVersion

def WsReqT.set (r : WsReqT) (h : Header) (v : List UInt8) : WsReqT :=
  match h with
  | .connection => { r with connection := v }
  | .upgrade => { r with upgrade := v }
  | .host => { r with host := v }
  | .origin => { r with origin := v }
  | .cookie => { r with cookie := v }
  | .secWebsocketKey => { r with secWebsocketKey := v }
  | .secWebsocketVersion => { r with secWebsocketVersion := v }

@[simp] theorem WsReqT.req_set (r : WsReqT) (h : Header) (v : List UInt8) :
    (r.set h v).req = r.req := by
  cases h <;> rfl

theorem WsReqT.get_set (r : WsReqT) (h h' : Header) (v : List UInt8) :
    (r.set h v).get h' = if h = h' then v else r.get h' := by
  cases h <;> cases h' <;> rfl

theorem WsReqT.ext_get {r r' : WsReqT} (hreq : r.req = r'.req) (h : ∀ x, r.get x = r'.get x) :
    r = r' := by
  obtain ⟨_,_,_,_,_,_,_,_⟩ := r
  obtain ⟨_,_,_,_,_,_,_,_⟩ := r'
  simp only [WsReqT.mk.injEq]
  exact ⟨hreq,h .connection,h .upgrade,h .host,h .origin,h .cookie,h .secWebsocketKey,
    h .secWebsocketVersion⟩

/-- The header of a line, if it has a colon and a known name. -/
def Line.header (l : Line) : Option Header :=
  if 58 ∈ l.bytes then Header.ofName (l.bytes.takeWhile (· ≠ 58)) else none

/-- What follows the colon, without leading spaces. -/
def Line.value (l : Line) : List UInt8 :=
  ((l.bytes.dropWhile (· ≠ 58)).drop 1).dropWhile (· = 32)

/-- The value of the last line with a header. -/
def lastValue (h : Header) (ls : List Line) : Option (List UInt8) :=
  ((ls.filter fun l => l.header = some h).getLast?).map Line.value

/-- The fields a request should give, `req` being those before. -/
def Request.fields (r : Request) (req : WsReqT) : WsReqT where
  req := r.requestLine.bytes
  connection := (lastValue .connection r.lines).getD req.connection
  upgrade := (lastValue .upgrade r.lines).getD req.upgrade
  host := (lastValue .host r.lines).getD req.host
  origin := (lastValue .origin r.lines).getD req.origin
  cookie := (lastValue .cookie r.lines).getD req.cookie
  secWebsocketKey := (lastValue .secWebsocketKey r.lines).getD req.secWebsocketKey
  secWebsocketVersion := (lastValue .secWebsocketVersion r.lines).getD req.secWebsocketVersion

theorem Request.get_fields (r : Request) (req : WsReqT) (h : Header) :
    (r.fields req).get h = (lastValue h r.lines).getD (req.get h) := by
  cases h <;> rfl

theorem lastValue_cons (h : Header) (l : Line) (ls : List Line) : lastValue h (l::ls) =
    if l.header = some h then some ((lastValue h ls).getD l.value) else lastValue h ls := by
  unfold lastValue
  rw [List.filter_cons]
  by_cases hl : l.header = some h
  · simp only [hl,decide_true,if_true,List.getLast?_cons,Option.map_some]
    cases (ls.filter fun l => l.header = some h).getLast? <;> rfl
  · simp [hl]

variable {pre post ds tok n v : List UInt8} {p q i : ℕ} {d : UInt8}

theorem cstr_eq (hp : p = pre.length) (h : ∀ b ∈ tok, b ≠ 0) :
    cstr (pre ++ (tok ++ 0::post)) p = tok := by
  rw [hp,cstr,List.drop_left,List.takeWhile_append_of_pos (by simpa using h)]
  simp

theorem set_eq (hq : q = pre.length) (b c : UInt8) :
    (pre ++ b::post).set q c = pre ++ c::post := by
  rw [hq,List.set_append_right _ _ le_rfl,Nat.sub_self,List.set_cons_zero]

theorem getD_eq (hq : q = pre.length) (b : UInt8) : (pre ++ b::post).getD q 0 = b := by
  simp [hq]

theorem takeWhile_stop {r : UInt8 → Bool} {b : UInt8} (hb : r b = false) (l : List UInt8) :
    (l ++ b::post).takeWhile r = l.takeWhile r := by
  induction l with
  | nil => simp [hb]
  | cons a l ih => simp [List.takeWhile_cons,ih]

theorem isDelim_zero : isDelim 0 = false := by decide

theorem isDelim_crlf : ∀ b ∈ [13,10], isDelim b = true := by simp [isDelim]

theorem isDelim_lf : ∀ b ∈ [10], isDelim b = true := by simp [isDelim]

/-- The next line is cut out, with the delimiter behind it overwritten. -/
theorem strtok_eq (hi : i = pre.length) (hds : ∀ b ∈ ds, isDelim b = true) (hne : tok ≠ [])
    (htok : ∀ b ∈ tok, b ≠ 0 ∧ isDelim b = false) (hd : isDelim d = true) :
    strtok (pre ++ (ds ++ (tok ++ d::post))) i =
      some (i+ds.length,pre ++ (ds ++ (tok ++ 0::post)),i+ds.length+tok.length+1) := by
  have hd₀ : d ≠ 0 := by
    rintro rfl
    simp [isDelim_zero] at hd
  have hskip : (((pre ++ (ds ++ (tok ++ d::post))).drop i).takeWhile isDelim) = ds := by
    rw [hi,List.drop_left,List.takeWhile_append_of_pos hds]
    obtain ⟨b,bs,rfl⟩ := List.exists_cons_of_ne_nil hne
    simp [(htok b List.mem_cons_self).2]
  have hlen : i+ds.length = (pre ++ ds).length := by rw [hi,List.length_append]
  have hbuf : pre ++ (ds ++ (tok ++ d::post)) = (pre ++ ds) ++ (tok ++ d::post) := by simp
  have hfirst : (pre ++ (ds ++ (tok ++ d::post))).getD (i+ds.length) 0 ≠ 0 := by
    obtain ⟨b,bs,rfl⟩ := List.exists_cons_of_ne_nil hne
    rw [hbuf,List.cons_append,getD_eq hlen]
    exact (htok b List.mem_cons_self).1
  have hword : ((cstr (pre ++ (ds ++ (tok ++ d::post))) (i+ds.length)).takeWhile (!isDelim ·)) =
      tok := by
    rw [hbuf,hlen,cstr,List.drop_left,
      List.takeWhile_append_of_pos (fun b hb => by simpa using (htok b hb).1),
      List.takeWhile_cons_of_pos (by simpa using hd₀),
      List.takeWhile_append_of_pos (fun b hb => by simp [(htok b hb).2])]
    simp [hd]
  have hend : i+ds.length+tok.length = (pre ++ (ds ++ tok)).length := by
    simp only [hi,List.length_append]
    omega
  have hbuf' : ∀ b, pre ++ (ds ++ (tok ++ b::post)) = (pre ++ (ds ++ tok)) ++ b::post := by simp
  unfold strtok
  simp only [hskip,hword]
  rw [if_neg hfirst,if_neg (by rw [hbuf',getD_eq hend]; exact hd₀),hbuf',set_eq hend,← hbuf']

theorem strtok_end (hi : i = pre.length) (hds : ∀ b ∈ ds, isDelim b = true) :
    strtok (pre ++ (ds ++ [0])) i = none := by
  have hskip : (((pre ++ (ds ++ [0])).drop i).takeWhile isDelim) = ds := by
    rw [hi,List.drop_left,List.takeWhile_append_of_pos hds]
    simp [isDelim_zero]
  have hlen : i+ds.length = (pre ++ ds).length := by rw [hi,List.length_append]
  unfold strtok
  simp only [hskip]
  rw [if_pos]
  rw [← List.append_assoc]
  exact getD_eq hlen 0

/-- What the branch of a header stores, with the value `v` and `post` behind its end: that of
`Host` starts one character late. -/
def stored (h : Header) (v post : List UInt8) : List UInt8 :=
  if h = .host then
    if v = [] then post.takeWhile (· ≠ 0) else v.drop 1
  else v

theorem storeHeader_other {name : String} {extra : ℕ} {set : WsReqT → List UInt8 → WsReqT}
    {buf : List UInt8} (h : stricmp (cstr buf p) (bytesOf name) = false) (s : ℕ × WsReqT) :
    storeHeader name extra set buf p s = s := by
  simp [storeHeader,h]

theorem storeHeader_own {name : String} {extra : ℕ} {set : WsReqT → List UInt8 → WsReqT}
    {buf : List UInt8} (h : stricmp (cstr buf p) (bytesOf name) = true) (s : ℕ × WsReqT) :
    storeHeader name extra set buf p s =
      (skipBlanks buf s.1,set s.2 (cstr buf (skipBlanks buf s.1+extra))) := by
  simp [storeHeader,h]

theorem strstrColon_eq (hp : p = pre.length) (hn : ∀ b ∈ n, b ≠ 0 ∧ b ≠ 58) (hv : ∀ b ∈ v, b ≠ 0) :
    strstrColon (pre ++ (n ++ 58::(v ++ 0::post))) p = some (p+n.length) := by
  have hstr : cstr (pre ++ (n ++ 58::(v ++ 0::post))) p = n ++ 58::v := by
    have hbuf : pre ++ (n ++ 58::(v ++ 0::post)) = pre ++ ((n ++ 58::v) ++ 0::post) := by simp
    rw [hbuf,cstr_eq hp]
    intro b hb
    rcases List.mem_append.mp hb with hb | hb
    · exact (hn b hb).1
    · rcases List.mem_cons.mp hb with rfl | hb
      · decide
      · exact hv b hb
  rw [strstrColon,hstr,if_pos (by simp),
    List.takeWhile_append_of_pos (fun b hb => by simpa using (hn b hb).2)]
  simp

/-- From the terminated colon the pointer walks over the blanks of the value. -/
theorem skipBlanks_eq {q : ℕ} (hq : q = pre.length) (v post : List UInt8) :
    skipBlanks (pre ++ 0::(v ++ 0::post)) q =
      (pre ++ [0] ++ v.takeWhile (· = 32)).length := by
  have hbehind : pre ++ 0::(v ++ 0::post) = (pre ++ [0]) ++ (v ++ 0::post) := by simp
  have hnext : q+1 = (pre ++ [0]).length := by simp [hq]
  rw [skipBlanks,hbehind,hnext,List.drop_left,takeWhile_stop (by decide)]
  exact List.length_append.symm

theorem cstr_late {w : List UInt8} (hw : ∀ b ∈ w, b ≠ 0) (pre post : List UInt8) :
    cstr (pre ++ (w ++ 0::post)) (pre.length+1) = stored .host w post := by
  have hlen : ∀ x : UInt8, pre.length+1 = (pre ++ [x]).length := by simp
  cases w with
  | nil =>
    rw [show pre ++ ([] ++ 0::post) = (pre ++ [0]) ++ post by simp,hlen 0,cstr,List.drop_left]
    rfl
  | cons x xs =>
    rw [show pre ++ (x::xs ++ 0::post) = (pre ++ [x]) ++ (xs ++ 0::post) by simp,hlen x,
      cstr_eq rfl fun b hb => hw b (List.mem_cons_of_mem x hb)]
    rfl

theorem storeHeaders_eq {buf w : List UInt8} {q k : ℕ} (hname : cstr buf p = n)
    (hblanks : skipBlanks buf q = k) (hval : cstr buf k = w)
    (hlate : cstr buf (k+1) = stored .host w post) (req : WsReqT) :
    (storeSecWebsocketVersion buf p (storeSecWebsocketKey buf p (storeCookie buf p
      (storeOrigin buf p (storeHost buf p (storeUpgrade buf p
        (storeConnection buf p (q,req)))))))).2 =
      (Header.ofName n).elim req fun h => req.set h (stored h w post) := by
  have hmatch : ∀ h : Header, stricmp (cstr buf p) (bytesOf h.name) =
      decide (Header.ofName n = some h) := by
    rw [hname]
    exact Header.stricmp_name n
  have h₁ := hmatch .connection
  have h₂ := hmatch .upgrade
  have h₃ := hmatch .host
  have h₄ := hmatch .origin
  have h₅ := hmatch .cookie
  have h₆ := hmatch .secWebsocketKey
  have h₇ := hmatch .secWebsocketVersion
  simp only [Header.name] at h₁ h₂ h₃ h₄ h₅ h₆ h₇
  simp only [storeConnection,storeUpgrade,storeHost,storeOrigin,storeCookie,storeSecWebsocketKey,
    storeSecWebsocketVersion]
  cases hof : Header.ofName n with
  | none =>
    simp only [hof,reduceCtorEq,decide_false] at h₁ h₂ h₃ h₄ h₅ h₆ h₇
    rw [storeHeader_other h₁,storeHeader_other h₂,storeHeader_other h₃,storeHeader_other h₄,
      storeHeader_other h₅,storeHeader_other h₆,storeHeader_other h₇]
    rfl
  | some h =>
    cases h
    all_goals
      simp only [hof,Option.some.injEq,reduceCtorEq,decide_false,decide_true] at h₁ h₂ h₃ h₄ h₅ h₆ h₇
      simp only [h₁,h₂,h₃,h₄,h₅,h₆,h₇,storeHeader_other,storeHeader_own,hblanks,Nat.add_zero,hval,
        hlate]
      rfl

theorem parseLine_colon (hp : p = pre.length) (hn : ∀ b ∈ n, b ≠ 0 ∧ b ≠ 58) (hv : ∀ b ∈ v, b ≠ 0)
    (req : WsReqT) : parseLine (pre ++ (n ++ 58::(v ++ 0::post))) p req =
      (pre ++ (n ++ 0::(v ++ 0::post)),
        (Header.ofName n).elim req fun h => req.set h (stored h (v.dropWhile (· = 32)) post)) := by
  have hq : p+n.length = (pre ++ n).length := by rw [hp,List.length_append]
  have hset : (pre ++ (n ++ 58::(v ++ 0::post))).set (p+n.length) 0 =
      pre ++ (n ++ 0::(v ++ 0::post)) := by
    rw [← List.append_assoc,set_eq hq,List.append_assoc]
  have hname : cstr (pre ++ (n ++ 0::(v ++ 0::post))) p = n := cstr_eq hp fun b hb => (hn b hb).1
  have hblanks := skipBlanks_eq hq v post
  -- the buffer is split where the value begins
  set w := v.dropWhile (· = 32) with hw
  have hsplit : v = v.takeWhile (· = 32) ++ w := (List.takeWhile_append_dropWhile).symm
  have hclean : ∀ b ∈ w, b ≠ 0 := fun b hb => hv b ((List.dropWhile_suffix _).subset hb)
  set m := pre ++ n ++ [0] ++ v.takeWhile (· = 32) with hm
  have hbuf : pre ++ (n ++ 0::(v ++ 0::post)) = m ++ (w ++ 0::post) := by
    rw [hm]
    nth_rewrite 1 [hsplit]
    simp
  rw [List.append_assoc] at hblanks
  unfold parseLine
  rw [strstrColon_eq hp hn hv]
  simp only [hset]
  rw [Prod.mk.injEq]
  refine ⟨rfl,storeHeaders_eq hname hblanks ?_ ?_ req⟩
  · rw [hbuf,cstr_eq rfl hclean]
  · rw [hbuf,cstr_late hclean]

/-- What a line does to the fields, `post` being what follows its carriage return. -/
def Line.applied (l : Line) (post : List UInt8) (req : WsReqT) : WsReqT :=
  l.header.elim req fun h => req.set h (stored h l.value post)

theorem parseLine_line (l : Line) (hp : p = pre.length) (post : List UInt8) (req : WsReqT) :
    ∃ m, m.length = p+l.bytes.length ∧
      parseLine (pre ++ (l.bytes ++ 0::post)) p req = (m ++ 0::post,l.applied post req) := by
  by_cases hcolon : 58 ∈ l.bytes
  · obtain ⟨n,v,hsplit,hn⟩ := List.eq_append_cons_of_mem hcolon
    have hclean := l.clean
    rw [hsplit] at hclean
    have hname : ∀ b ∈ n, b ≠ 0 ∧ b ≠ 58 := fun b hb =>
      ⟨(hclean b (by simp [hb])).1,fun h => hn (h ▸ hb)⟩
    have htake : l.bytes.takeWhile (· ≠ 58) = n := by
      rw [hsplit,takeWhile_stop (by decide),List.takeWhile_eq_self_iff]
      simpa using fun b hb => (hname b hb).2
    have hdrop : l.bytes.dropWhile (· ≠ 58) = 58::v := by
      rw [hsplit,List.dropWhile_append_of_pos (by simpa using fun b hb => (hname b hb).2)]
      simp
    have hline := @parseLine_colon pre post n v p hp hname (fun b hb => (hclean b (by simp [hb])).1) req
    refine ⟨pre ++ (n ++ 0::v),?_,?_⟩
    · rw [hsplit]
      simp [hp]
    · rw [hsplit,show (n ++ 58::v) ++ 0::post = n ++ 58::(v ++ 0::post) by simp,hline]
      have hheader : l.header = Header.ofName n := by rw [Line.header,if_pos hcolon,htake]
      have hvalue : l.value = v.dropWhile (· = 32) := by rw [Line.value,hdrop]; rfl
      rw [Line.applied,hheader,hvalue]
      simp
  · refine ⟨pre ++ l.bytes,by simp [hp],?_⟩
    rw [parseLine,strstrColon,cstr_eq hp fun b hb => (l.clean b hb).1,if_neg hcolon]
    simp [Line.applied,Line.header,hcolon]

theorem parseLines_line (l : Line) (hi : i = pre.length) (hds : ∀ b ∈ ds, isDelim b = true)
    (post : List UInt8) (req : WsReqT) : ∃ pre' ds', (∀ b ∈ ds', isDelim b = true) ∧
      parseLines (pre ++ (ds ++ (l.crlf ++ post))) i req =
        parseLines (pre' ++ (ds' ++ post)) pre'.length (l.applied (10::post) req) := by
  by_cases hne : l.bytes = []
  · refine ⟨pre,ds ++ [13,10],?_,?_⟩
    · intro b hb
      rcases List.mem_append.mp hb with hb | hb
      · exact hds b hb
      · exact isDelim_crlf b hb
    · simp [Line.crlf,hne,Line.applied,Line.header,hi]
  · have hbuf : pre ++ (ds ++ (l.crlf ++ post)) = pre ++ (ds ++ (l.bytes ++ 13::(10::post))) := by
      simp [Line.crlf]
    have htok := @strtok_eq pre (10::post) ds l.bytes i 13 hi hds hne l.clean (by decide)
    obtain ⟨m,hm,hline⟩ := @parseLine_line (pre ++ ds) (i+ds.length) l
      (by rw [hi,List.length_append]) (10::post) req
    rw [List.append_assoc] at hline
    refine ⟨m ++ [0],[10],isDelim_lf,?_⟩
    rw [hbuf,parseLines,htok]
    simp only [hline]
    congr 1
    · simp
    · rw [List.length_append,hm]
      rfl

theorem stored_host_ne (v post : List UInt8) : stored .host v (10::post) ≠ v := by
  rw [stored,if_pos rfl]
  intro h
  split at h
  · rename_i hv
    simp [hv] at h
  · rename_i hv
    have hlen := congrArg List.length h
    have hpos := List.length_pos_of_ne_nil hv
    rw [List.length_drop] at hlen
    omega

theorem lastValue_eq_none {h : Header} {ls : List Line} :
    lastValue h ls = none ↔ ∀ l ∈ ls, l.header ≠ some h := by
  simp [lastValue]

/-- Every header but `Host` gets the value of its last line, `Host` if it has none. -/
theorem parseLines_get (ls : List Line) (hi : i = pre.length) (hds : ∀ b ∈ ds, isDelim b = true)
    (req : WsReqT) :
    (parseLines (pre ++ (ds ++ (ls.flatMap Line.crlf ++ [0]))) i req).req = req.req ∧
    (∀ h ≠ Header.host, (parseLines (pre ++ (ds ++ (ls.flatMap Line.crlf ++ [0]))) i req).get h =
      (lastValue h ls).getD (req.get h)) ∧
    ((parseLines (pre ++ (ds ++ (ls.flatMap Line.crlf ++ [0]))) i req).get .host =
      (lastValue .host ls).getD (req.get .host) ↔ ∀ l ∈ ls, l.header ≠ some .host) := by
  induction ls generalizing pre ds i req with
  | nil =>
    have hend : parseLines (pre ++ (ds ++ [0])) i req = req := by
      rw [parseLines,strtok_end hi hds]
    rw [List.flatMap_nil,List.nil_append,hend]
    simp [lastValue]
  | cons l ls ih =>
    obtain ⟨pre',ds',hds',hline⟩ := parseLines_line l hi hds (ls.flatMap Line.crlf ++ [0]) req
    rw [List.flatMap_cons,List.append_assoc,hline]
    obtain ⟨hreq,hother,hhost⟩ := ih rfl hds' (l.applied (10::(ls.flatMap Line.crlf ++ [0])) req)
    have hget : ∀ h, (l.applied (10::(ls.flatMap Line.crlf ++ [0])) req).get h =
        if l.header = some h then stored h l.value (10::(ls.flatMap Line.crlf ++ [0]))
        else req.get h := by
      intro h
      cases hl : l.header with
      | none => simp [Line.applied,hl]
      | some h' =>
        simp only [Line.applied,hl,Option.elim_some,WsReqT.get_set,Option.some.injEq]
        split
        · rename_i heq
          rw [heq]
        · rfl
    refine ⟨?_,fun h hne => ?_,?_⟩
    · rw [hreq,Line.applied]
      cases l.header <;> simp
    · rw [hother h hne,hget,lastValue_cons]
      split
      · simp [stored,hne]
      · rfl
    · rw [lastValue_cons]
      rw [hget] at hhost
      by_cases hl : l.header = some .host
      · rw [if_pos hl] at hhost ⊢
        refine iff_of_false ?_ (by simp [hl])
        cases hv : lastValue .host ls with
        | none =>
          rw [hv] at hhost
          rw [hhost.mpr (lastValue_eq_none.mp hv)]
          exact stored_host_ne _ _
        | some v =>
          rw [hv] at hhost
          intro heq
          have hnone := lastValue_eq_none.mpr (hhost.mp heq)
          simp [hv] at hnone
      · rw [if_neg hl] at hhost ⊢
        rw [hhost]
        simp [hl]

/-- The request is taken apart into the fields it should give. -/
def Parses (r : Request) (req : WsReqT) : Prop :=
  parseWebsocketRequest (some r.text) (some req) = (0,some (r.fields req))

theorem parseWebsocketRequest_text (r : Request) (req : WsReqT) : ∃ res,
    parseWebsocketRequest (some r.text) (some req) = (0,some res) ∧
    res.req = r.requestLine.bytes ∧
    (∀ h ≠ Header.host, res.get h = (r.fields req).get h) ∧
    (res.get .host = (r.fields req).get .host ↔ ∀ l ∈ r.lines, l.header ≠ some .host) := by
  have hcrlf : ∀ l : Line, ∀ b ∈ l.crlf, b ≠ 0 := by
    intro l b hb
    rcases List.mem_append.mp hb with hb | hb
    · exact (l.clean b hb).1
    · rintro rfl
      simp at hb
  have htext : r.text.takeWhile (· ≠ 0) = r.text := by
    rw [List.takeWhile_eq_self_iff]
    intro b hb
    rcases List.mem_append.mp hb with hb | hb
    · simpa using hcrlf _ b hb
    · obtain ⟨l,-,hb⟩ := List.mem_flatMap.mp hb
      simpa using hcrlf l b hb
  set post := r.lines.flatMap Line.crlf ++ [0] with hpost
  have hbuf : r.text ++ [0] = [] ++ ([] ++ (r.requestLine.bytes ++ 13::(10::post))) := by
    simp [Request.text,Line.crlf,hpost]
  have htok := @strtok_eq [] (10::post) [] r.requestLine.bytes 0 13 rfl (by simp) r.nonempty
    r.requestLine.clean (by decide)
  simp only [List.length_nil,Nat.zero_add,List.nil_append] at htok
  have hcstr : cstr (r.requestLine.bytes ++ 0::10::post) 0 = r.requestLine.bytes :=
    @cstr_eq [] (10::post) _ 0 rfl fun b hb => (r.requestLine.clean b hb).1
  have hget := @parseLines_get (r.requestLine.bytes ++ [0]) [10] (r.requestLine.bytes.length+1) r.lines
    (by simp) isDelim_lf { req with req := r.requestLine.bytes }
  rw [← hpost,show (r.requestLine.bytes ++ [0]) ++ ([10] ++ post) =
    r.requestLine.bytes ++ 0::10::post by simp] at hget
  refine ⟨_,?_,hget.1,fun h hne => ?_,?_⟩
  · simp only [parseWebsocketRequest,htext,hbuf,List.nil_append,htok,hcstr]
  · rw [hget.2.1 h hne,Request.get_fields]
    cases h <;> rfl
  · rw [← hget.2.2,Request.get_fields]
    rfl

/-- A request is parsed right exactly if it has no `Host` line. -/
theorem parses_iff (r : Request) (req : WsReqT) :
    Parses r req ↔ ∀ l ∈ r.lines, l.header ≠ some .host := by
  obtain ⟨res,hres,hreq,hother,hhost⟩ := parseWebsocketRequest_text r req
  rw [Parses,hres,← hhost]
  constructor
  · intro h
    simp only [Prod.mk.injEq,true_and,Option.some.injEq] at h
    rw [h]
  · intro h
    have hall : res = r.fields req := by
      refine WsReqT.ext_get hreq fun x => ?_
      by_cases hx : x = .host
      · rw [hx,h]
      · exact hother x hx
    rw [hall]

theorem clean_of_all {bs : List UInt8} (h : bs.all (fun b => b ≠ 0 && !isDelim b) = true) :
    ∀ b ∈ bs, b ≠ 0 ∧ isDelim b = false := by
  simpa using h

/-- `GET / HTTP/1.1` with the header `Host: a`. -/
def hostRequest : Request where
  requestLine := ⟨bytesOf "GET / HTTP/1.1",clean_of_all (by decide)⟩
  nonempty := by decide
  lines := [⟨bytesOf "Host: a",clean_of_all (by decide)⟩]

theorem not_parses_host : ¬∀ r req, Parses r req := by
  intro hall
  have hparses := hall hostRequest ⟨[],[],[],[],[],[],[],[]⟩
  obtain ⟨res,hres,-,-,hhost⟩ := parseWebsocketRequest_text hostRequest ⟨[],[],[],[],[],[],[],[]⟩
  rw [Parses,hres] at hparses
  simp only [Prod.mk.injEq,true_and,Option.some.injEq] at hparses
  have hline := hhost.mp (by rw [hparses]) _ List.mem_cons_self
  exact hline (by decide)

end WebSocket
end SdkCp
