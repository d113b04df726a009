import GraphAgent.Tools.Url
import GraphAgent.Realtime.Delegate

/-!
# Fetching a page

`WebFetchTool`: its check of the URL, and the requests that `httpx` sends when it follows
the redirects of a server. The check is made once, before the first of them.
-/

namespace GraphAgent.WebFetch

open Url

section Check

/-- `WebFetchToolConfig`, as far as the tool reads it for its requests, with the text
functions of Python and its `int`. -/
structure WebFetchTool where
  maxChars : Int
  allowPrivateHosts : Bool
  py : Python
  norm : Normalization
  toInt : Value → Except String Int

variable (tool : WebFetchTool)

/-- The address belongs to one of the blocks that are refused. -/
def refused (address : Address) : Bool :=
  address.isPrivate || address.isLoopback || address.isLinkLocal || address.isReserved ||
    address.isUnspecified

namespace WebFetchTool

/-- `WebFetchTool._validate_url`. -/
def validateUrl (url : String) : Except String Unit := do
  let parsed ← urlparse tool.py tool.norm url
  if parsed.scheme ≠ "http" ∧ parsed.scheme ≠ "https" then
    throw ("web_fetch: unsupported URL scheme: " ++ tool.py.repr (.str parsed.scheme))
  if tool.allowPrivateHosts then return
  match parsed.hostname tool.py with
  | none => throw "web_fetch: URL is missing a host"
  | some host =>
      if host = "" then throw "web_fetch: URL is missing a host"
      if host = "localhost" then throw "web_fetch: private/loopback host not allowed: localhost"
      match ipAddress host.toList with
      | none => return
      | some address =>
          if refused address then
            throw ("web_fetch: private/loopback host not allowed: " ++ host)

/-- The URL may be requested. -/
def Allows (url : String) : Prop := tool.validateUrl url = .ok ()

instance (url : String) : Decidable (tool.Allows url) :=
  match h : tool.validateUrl url with
  | .ok () => .isTrue h
  | .error _ => .isFalse fun hok => by rw [Allows, h] at hok; cases hok

end WebFetchTool

end Check

section Requests

/-- What a server answers: a redirect to the URL that `httpx` makes of its Location, or a
page. -/
inductive Response where
  | redirect (location : String)
  | page (page : Value)

/-- `_send_handling_redirects` of `httpx`: the URLs requested, and the page. The server's
answers come one after the other, and after the last of them it fails. -/
def sendHandlingRedirects : Nat → String → List Response → List String × Except String Value
  | _, url, [] => ([url], .error "connection lost")
  | _, url, .page page :: _ => ([url], .ok page)
  | 0, url, .redirect _ :: _ => ([url], .error "Exceeded maximum allowed redirects.")
  | left + 1, url, .redirect location :: rest =>
      let (urls, result) := sendHandlingRedirects left location rest
      (url :: urls, result)

/-- `DEFAULT_MAX_REDIRECTS` of `httpx`. -/
def defaultMaxRedirects : Nat := 20

variable (tool : WebFetchTool)

namespace WebFetchTool

/-- `args.get("max_chars") or self.config.max_chars` -/
def maxCharsOf (args : Args) : Value :=
  (Realtime.orElse (Args.get? args "max_chars") (some (.int tool.maxChars))).getD .null

/-- `WebFetchTool.execute` up to its request: the URL and the number of characters. -/
def plan (args : Args) : Except String (String × Int) := do
  let url ←
    match Args.get? args "url" with
    | some url => pure (Text.strip (tool.py.str url))
    | none => throw "'url'"
  tool.validateUrl url
  return (url, ← tool.toInt (tool.maxCharsOf args))

/-- `WebFetchTool.execute`: the URLs that are requested, and the result, where `read` makes
it of the page. -/
def execute (read : Value → Int → Except String Value) (args : Args) (responses : List Response) :
    List String × Except String Value :=
  match tool.plan args with
  | .error error => ([], .error error)
  | .ok (url, maxChars) =>
      let (urls, result) := sendHandlingRedirects defaultMaxRedirects url responses
      (urls, result.bind fun page => read page maxChars)

end WebFetchTool

/-- The call is over before any request: it has no URL, or one that the check refuses, or a
number of characters that is none. -/
def WebFetchTool.Refuses (args : Args) : Prop :=
  (∀ url, Args.get? args "url" = some url → ¬ tool.Allows (Text.strip (tool.py.str url))) ∨
    ∃ error, tool.toInt (tool.maxCharsOf args) = .error error

/-- The URLs that the redirects before the first page lead to. -/
def followed : Nat → List Response → List String
  | left + 1, .redirect location :: rest => location :: followed left rest
  | _, _ => []

end Requests

section Plan

variable {tool : WebFetchTool} {args : Args} {url : String}

/-- What the check lets through has a web scheme, and unless private hosts are allowed its
host is neither localhost nor a refused address. -/
theorem WebFetchTool.Allows.host (h : tool.Allows url) :
    ∃ parsed, urlparse tool.py tool.norm url = .ok parsed ∧
      (parsed.scheme = "http" ∨ parsed.scheme = "https") ∧
      (tool.allowPrivateHosts = true ∨
        ∃ host, parsed.hostname tool.py = some host ∧ host ≠ "localhost" ∧
          ∀ address, ipAddress host.toList = some address → refused address = false) := by
  unfold WebFetchTool.Allows WebFetchTool.validateUrl at h
  cases hparsed : urlparse tool.py tool.norm url with
  | error error =>
      rw [hparsed] at h
      cases h
  | ok parsed =>
      rw [hparsed] at h
      refine ⟨parsed, rfl, ?_⟩
      by_cases hscheme : parsed.scheme ≠ "http" ∧ parsed.scheme ≠ "https"
      · simp [hscheme, bind, Except.bind, throw, throwThe, MonadExceptOf.throw] at h
      have hweb : parsed.scheme = "http" ∨ parsed.scheme = "https" := by
        by_cases hhttp : parsed.scheme = "http"
        · exact .inl hhttp
        · exact .inr (by_contra fun hhttps => hscheme ⟨hhttp, hhttps⟩)
      refine ⟨hweb, ?_⟩
      cases hallow : tool.allowPrivateHosts with
      | true => exact .inl rfl
      | false =>
          right
          simp only [hscheme, hallow, bind, Except.bind, pure, Except.pure, throw, throwThe,
            MonadExceptOf.throw, if_false, Bool.false_eq_true] at h
          cases hhost : parsed.hostname tool.py with
          | none =>
              rw [hhost] at h
              cases h
          | some host =>
              rw [hhost] at h
              refine ⟨host, rfl, ?_, ?_⟩
              · rintro rfl
                simp at h
              · intro address haddress
                by_contra hrefused
                rw [Bool.not_eq_false] at hrefused
                by_cases hempty : host = ""
                · simp [hempty] at h
                by_cases hlocal : host = "localhost"
                · simp [hlocal] at h
                simp [hempty, hlocal, haddress, hrefused] at h

/-- A call that comes to its request asks for a URL that the check has let through. -/
theorem plan_eq_ok {maxChars : Int} (h : tool.plan args = .ok (url, maxChars)) :
    tool.Allows url ∧ ¬ tool.Refuses args := by
  unfold WebFetchTool.plan at h
  cases hurl : Args.get? args "url" with
  | none =>
      rw [hurl] at h
      cases h
  | some value =>
      rw [hurl] at h
      cases hallows : tool.validateUrl (Text.strip (tool.py.str value)) with
      | error error => simp [hallows, bind, Except.bind, pure, Except.pure] at h
      | ok =>
          cases hint : tool.toInt (tool.maxCharsOf args) with
          | error error => simp [hallows, hint, bind, Except.bind, pure, Except.pure] at h
          | ok n =>
              simp only [hallows, hint, bind, Except.bind, pure, Except.pure, Except.ok.injEq,
                Prod.mk.injEq] at h
              obtain ⟨rfl, rfl⟩ := h
              refine ⟨hallows, ?_⟩
              rintro (hrefuses | ⟨error, herror⟩)
              · exact hrefuses value hurl hallows
              · rw [hint] at herror
                cases herror

/-- Any other call is refused. -/
theorem refuses_of_plan_error {error : String} (h : tool.plan args = .error error) :
    tool.Refuses args := by
  unfold WebFetchTool.plan at h
  cases hurl : Args.get? args "url" with
  | none =>
      left
      intro value hvalue
      rw [hurl] at hvalue
      cases hvalue
  | some value =>
      rw [hurl] at h
      cases hallows : tool.validateUrl (Text.strip (tool.py.str value)) with
      | error error =>
          left
          intro other hother hallowed
          rw [hurl] at hother
          obtain rfl := Option.some.inj hother
          rw [WebFetchTool.Allows, hallows] at hallowed
          cases hallowed
      | ok =>
          cases hint : tool.toInt (tool.maxCharsOf args) with
          | error error => exact .inr ⟨error, hint⟩
          | ok n => simp [hallows, hint, bind, Except.bind, pure, Except.pure] at h

end Plan

section Chain

/-- `httpx` requests the URL it is given, and then one URL for each redirect it follows. -/
theorem requests_eq_followed (left : Nat) (url : String) (responses : List Response) :
    (sendHandlingRedirects left url responses).1 = url :: followed left responses := by
  induction responses generalizing left url with
  | nil => cases left <;> rfl
  | cons response rest ih =>
      cases response with
      | page page => cases left <;> rfl
      | redirect location =>
          cases left with
          | zero => rfl
          | succ left =>
              rw [sendHandlingRedirects, followed, ← ih left location]

/-- Every URL that is requested passes the check exactly if the call is over before its
first request, or all the redirects that are followed lead to URLs that pass it. -/
theorem requests_allowed_iff (tool : WebFetchTool) (read : Value → Int → Except String Value)
    (args : Args) (responses : List Response) :
    (∀ url ∈ (tool.execute read args responses).1, tool.Allows url) ↔
      tool.Refuses args ∨
        ∀ location ∈ followed defaultMaxRedirects responses, tool.Allows location := by
  unfold WebFetchTool.execute
  rcases hplan : tool.plan args with error | ⟨url, maxChars⟩
  · have hrefuses := refuses_of_plan_error hplan
    simp [hrefuses]
  · obtain ⟨hurl, haccepts⟩ := plan_eq_ok hplan
    have hrequests := requests_eq_followed defaultMaxRedirects url responses
    simp only [hrequests, List.forall_mem_cons, hurl, haccepts, true_and, false_or]

/-- The tool of the default configuration, on texts of ASCII characters. -/
def defaultTool : WebFetchTool where
  maxChars := 8000
  allowPrivateHosts := false
  py := ⟨Text.lower, fun c => c.isAlphanum || c = '_', fun _ => ""⟩
  norm := ⟨id⟩
  toInt
    | .int n => .ok n
    | _ => .error "int() argument"

/-- A public page redirects to the local model proxy, which is requested. -/
theorem redirect_reaches_loopback :
    let args : Args := [("url", .str "http://example.com/")]
    let responses := [Response.redirect "http://127.0.0.1:4000/v1/models", .page .null]
    (defaultTool.execute (fun page _ => .ok page) args responses).1 =
        ["http://example.com/", "http://127.0.0.1:4000/v1/models"] ∧
      defaultTool.Allows "http://example.com/" ∧
      defaultTool.validateUrl "http://127.0.0.1:4000/v1/models" =
        .error "web_fetch: private/loopback host not allowed: 127.0.0.1" := by
  decide +kernel

end Chain

end GraphAgent.WebFetch
