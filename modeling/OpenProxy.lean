import OpenProxy.Think.Agreement
import OpenProxy.Routing.Parity
import OpenProxy.Limits.LazyExpiry
import OpenProxy.Limits.Lockout
import OpenProxy.Translation.AnthropicOutput
import OpenProxy.Routing.Freshness
import OpenProxy.Translation.ResponsesProtocol
import OpenProxy.Upstream.AnthropicParity
import OpenProxy.Cloaking.ToolNames
import OpenProxy.Models.SinglePass
import OpenProxy.Racing.Exhaustion
import OpenProxy.Usage.PriceTable
import OpenProxy.Usage.Admission
import OpenProxy.Combos.Windows
import OpenProxy.Combos.AccountRotation
import OpenProxy.Anthropic.Response
import OpenProxy.Anthropic.Budget
import OpenProxy.Compression.Lite
import OpenProxy.Compression.Lossless
import OpenProxy.Compression.Whitespace
import OpenProxy.Threads.Registry
import OpenProxy.Streaming.ToolArguments
import OpenProxy.Streaming.UsageSync
import OpenProxy.Streaming.Sanitized
import OpenProxy.Pii.Echo
import OpenProxy.Streaming.Framing
import OpenProxy.Pii.Termination
import OpenProxy.Net.ClientIp
import OpenProxy.Upstream.Cancellation
import OpenProxy.Auth.Revocation
import OpenProxy.Kiro.Parity
import OpenProxy.Pii.Freshness
import OpenProxy.Accumulator.Agreement
import OpenProxy.Audio.Duration
import OpenProxy.Quota.ResetTime
import OpenProxy.Combos.Registry
import OpenProxy.Limits.Cooldowns
import OpenProxy.Anthropic.CacheControl
import OpenProxy.Pii.Coverage
import OpenProxy.Upstream.ResponsesArguments
import OpenProxy.Upstream.CommandCodeIdentity
import OpenProxy.Upstream.Gemini
import OpenProxy.Kiro.Deframing
import OpenProxy.Backup.Restore
import OpenProxy.Auth.Matching
import OpenProxy.Limits.SlidingWindow
import OpenProxy.Streaming.Coalesce
import OpenProxy.Devin.Codec
import OpenProxy.Pii.Protected
import OpenProxy.Compression.SmartTruncate
import OpenProxy.Combos.Decision
import OpenProxy.Upstream.Dns
import OpenProxy.Images.MaskExact
import OpenProxy.Formatting.ToolArguments
