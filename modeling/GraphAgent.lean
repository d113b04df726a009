import GraphAgent.Library.Transition
import GraphAgent.Library.Pairing
import GraphAgent.Library.Relay
import GraphAgent.Library.Conveyor
import GraphAgent.Library.Blocks
import GraphAgent.Library.Board
import GraphAgent.Library.Dictionaries
import GraphAgent.Library.CommandLine
import GraphAgent.Library.Hex
import GraphAgent.Library.Mounts
import GraphAgent.Library.Utf8
import GraphAgent.Library.Frames
import GraphAgent.Library.NamedTrees
import GraphAgent.Library.Regex
import GraphAgent.Library.Rewriting
import GraphAgent.Library.Loop
import GraphAgent.Library.Automaton
import GraphAgent.Library.Rounding
import GraphAgent.Library.Base64
import GraphAgent.Library.Chunks
import GraphAgent.Library.Moves
import GraphAgent.Library.Distinct
import GraphAgent.Library.Splitting
import GraphAgent.Core.Json
import GraphAgent.Core.KeyOrder
import GraphAgent.Core.Text
import GraphAgent.Core.Messages
import GraphAgent.Core.State
import GraphAgent.Core.Compaction
import GraphAgent.Core.Sessions
import GraphAgent.Core.SessionRace
import GraphAgent.Service.ThreadCalls
import GraphAgent.Service.GuardStream
import GraphAgent.Service.SoleRun
import GraphAgent.Service.StreamEnd
import GraphAgent.Service.Bus
import GraphAgent.Service.CancelledCaller
import GraphAgent.Tools.Policy
import GraphAgent.Core.Events
import GraphAgent.Core.ToolCalls
import GraphAgent.Core.Run
import GraphAgent.Core.RunHistory
import GraphAgent.Core.ToolPass
import GraphAgent.Tools.Url
import GraphAgent.Tools.WebSearch
import GraphAgent.Tools.Similarity
import GraphAgent.Tools.ConcurrentPolicies
import GraphAgent.Core.Turn
import GraphAgent.Core.Termination
import GraphAgent.Core.Approvals
import GraphAgent.Core.Rounds
import GraphAgent.Core.ToolsNode
import GraphAgent.Core.BargeIn
import GraphAgent.Service.CompactSession
import GraphAgent.Service.SystemPrompt
import GraphAgent.Service.Frontmatter
import GraphAgent.Service.EventStream
import GraphAgent.Service.FinalText
import GraphAgent.Transports.Cli
import GraphAgent.Transports.Consumers
import GraphAgent.Transports.Completions
import GraphAgent.Transports.Ami
import GraphAgent.Transports.Originate
import GraphAgent.Transports.Outbound
import GraphAgent.Transports.AudioSocket
import GraphAgent.Transports.Audio
import GraphAgent.Transports.Playback
import GraphAgent.Transports.PhoneLeg
import GraphAgent.Transports.DeltaCuts
import GraphAgent.Realtime.Delegate
import GraphAgent.Realtime.Outputs
import GraphAgent.Realtime.Transcript
import GraphAgent.Realtime.SessionUpdate
import GraphAgent.Realtime.Dialect
import GraphAgent.Realtime.Speech
import GraphAgent.Tools.WebFetch
import GraphAgent.Tools.SearchResults
import GraphAgent.Tools.Filesystem
import GraphAgent.Tools.FileStore
import GraphAgent.Tools.Shell
import GraphAgent.Telegram.Tags
import GraphAgent.Telegram.Split
import GraphAgent.Telegram.Nesting
import GraphAgent.Telegram.Formatting
import GraphAgent.Telegram.Lexing
import GraphAgent.Telegram.PlainText
import GraphAgent.Telegram.Markup
import GraphAgent.Telegram.Links
import GraphAgent.Telegram.Emphasis
import GraphAgent.Telegram.Rendered
import GraphAgent.Telegram.Reply
import GraphAgent.Telegram.ReplyDrafts
import GraphAgent.Telegram.ReplyChat
import GraphAgent.Telegram.Attachments
import GraphAgent.Core.JsonRoundTrip
import GraphAgent.Core.LlmParsing
import GraphAgent.Core.Repeats
import GraphAgent.Library.ServerSentEvents
import GraphAgent.Transports.SseWire
