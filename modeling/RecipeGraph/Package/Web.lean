import RecipeGraph.Package.Address

/-!
The web as far as it is known. A reply with a status from 200 to 299 brings a text; any other
brings a reason, which is the standard phrase of its status, or the number where there is none.
-/
namespace RecipeGraph.Package

inductive Reply
  | response (status : Nat) (text : String)
  /-- No reply came; what kind of failure it was, and its text. -/
  | failure (kind text : String)
  deriving Repr

/-- The standard phrases of the statuses that bring no text. -/
def statusPhrases : List (Nat × String) :=
  [(100, "Continue"), (101, "Switching Protocols"), (102, "Processing"), (103, "Early Hints"),
   (300, "Multiple Choices"), (301, "Moved Permanently"), (302, "Found"), (303, "See Other"),
   (304, "Not Modified"), (305, "Use Proxy"), (307, "Temporary Redirect"),
   (308, "Permanent Redirect"),
   (400, "Bad Request"), (401, "Unauthorized"), (402, "Payment Required"), (403, "Forbidden"),
   (404, "Not Found"), (405, "Method Not Allowed"), (406, "Not Acceptable"),
   (407, "Proxy Authentication Required"), (408, "Request Timeout"), (409, "Conflict"),
   (410, "Gone"), (411, "Length Required"), (412, "Precondition Failed"),
   (413, "Request Entity Too Large"), (414, "Request-URI Too Long"),
   (415, "Unsupported Media Type"), (416, "Requested Range Not Satisfiable"),
   (417, "Expectation Failed"), (418, "I'm a teapot"), (421, "Misdirected Request"),
   (422, "Unprocessable Entity"), (423, "Locked"), (424, "Failed Dependency"),
   (425, "Too Early"), (426, "Upgrade Required"), (428, "Precondition Required"),
   (429, "Too Many Requests"), (431, "Request Header Fields Too Large"),
   (451, "Unavailable For Legal Reasons"),
   (500, "Internal Server Error"), (501, "Not Implemented"), (502, "Bad Gateway"),
   (503, "Service Unavailable"), (504, "Gateway Timeout"), (505, "HTTP Version Not Supported"),
   (506, "Variant Also Negotiates"), (507, "Insufficient Storage"), (508, "Loop Detected"),
   (510, "Not Extended"), (511, "Network Authentication Required")]

def statusPhrase (status : Nat) : String :=
  (statusPhrases.lookup status).getD (toString status)

/-- The text that a reply brings, or the reason why it brings none. -/
def Reply.read : Reply → Except String String
  | response status text =>
      if 200 ≤ status ∧ status ≤ 299 then .ok text else .error (statusPhrase status)
  | failure kind text => .error (if text = "" then kind else text)

def Reply.isResponse : Reply → Bool
  | response _ _ => true
  | failure _ _ => false

/-- The text a reply comes with, if any. -/
def Reply.body : Reply → String
  | response _ text => text
  | failure _ _ => ""

structure Web where
  /-- What every known address replies. -/
  pages : List (String × Reply) := []

/-- The failure to ask for a page that nothing is known of. -/
def unreached (address : Address) : Reply :=
  if address.isComplete then .failure "ConnectError" "All connection attempts failed"
  else
    .failure "UnsupportedProtocol" "Request URL is missing an 'http://' or 'https://' protocol."

def Web.ask (web : Web) (address : Address) : Reply :=
  (web.pages.lookup address.text).getD (unreached address)

end RecipeGraph.Package
